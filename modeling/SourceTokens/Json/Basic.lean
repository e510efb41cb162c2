import SourceTokens.Json.Number

/-!
Documents as trees. Members of an object keep their order, and a key may occur more than once. A
string is either text or unreadable: it may hold a surrogate without its partner, or bytes that
encode no character, which is no fault as long as nobody asks for its text.
-/

namespace SourceTokens

inductive Json
  | null
  | boolean (value : Bool)
  | number (n : Json.Number)
  /-- A string with its text, or without when it cannot be read. -/
  | string (text : Option Text)
  | array (items : List Json)
  | object (members : List (Option Text × Json))
  deriving Repr

namespace Json

def ofText (text : Text) : Json := .string (some text)

def ofNat (n : Nat) : Json := .number (.ofNat n)

def text? : Json → Option Text
  | .string text => text
  | _ => none

def nat? : Json → Option Nat
  | .number n => n.toNat?
  | _ => none

def items? : Json → Option (List Json)
  | .array items => some items
  | _ => none

mutual

/-- Whether every string can be read, every number fits a double, and arrays and objects lie at
most `limit` deep in each other. -/
def isReadable (limit : Nat) : Json → Bool
  | .null => true
  | .boolean _ => true
  | .number n => n.fitsDouble
  | .string text => text.isSome
  | .array items => 0 < limit && areReadable (limit - 1) items
  | .object members => 0 < limit && haveReadableMembers (limit - 1) members

def areReadable (limit : Nat) : List Json → Bool
  | [] => true
  | item :: rest => isReadable limit item && areReadable limit rest

def haveReadableMembers (limit : Nat) : List (Option Text × Json) → Bool
  | [] => true
  | (key, value) :: rest =>
    key.isSome && isReadable limit value && haveReadableMembers limit rest

end

end Json

end SourceTokens
