import SourceTokens.Json.Basic

/-!
Records in documents. A record may be written as an object or as an array of its fields in their
order. In an object unknown members are skipped whatever they hold, but a known key must not come
twice, and every key must be text so that it can be compared. In an array the last fields may be
missing, and there must be no more items than fields.
-/

namespace SourceTokens.Json

/-- The value under a key that must not occur twice; nothing when it does not occur. -/
def only? (members : List (Option Text × Json)) (key : Text) : Option (Option Json) :=
  match members.filter fun member => member.1 == some key with
  | [] => some none
  | [member] => some (some member.2)
  | _ => none

def fields? (names : List Text) : Json → Option (List (Option Json))
  | .object members =>
    if members.all fun member => member.1.isSome then names.mapM (only? members) else none
  | .array items =>
    if items.length ≤ names.length then
      some (items.map some ++ List.replicate (names.length - items.length) none)
    else none
  | _ => none

def optional? {α : Type} (read? : Json → Option α) : Option Json → Option (Option α)
  | none => some none
  | some .null => some none
  | some value => (read? value).map some

/-- A choice among names: the name itself, or an object that holds nothing but that name with a
null. -/
def choice? : Json → Option Text
  | .string name => name
  | .object [(name, .null)] => name
  | _ => none

def record (members : List (Text × Option Json)) : Json :=
  .object (members.filterMap fun (key, value) => value.map fun v => (some key, v))

end SourceTokens.Json
