import SourceTokens.Json.Basic
import SourceTokens.Json.Quoted

/-!
Documents as text, without any space. A string that cannot be read is written as a surrogate
without its partner, which cannot be read either.
-/

namespace SourceTokens.Json

def quote? : Option Text → Text
  | some text => quote text
  | none => "\"\\ud800\"".toList

mutual

def print : Json → Text
  | .null => "null".toList
  | .boolean true => "true".toList
  | .boolean false => "false".toList
  | .number n => n.text
  | .string text => quote? text
  | .array items => '[' :: printItems items ++ [']']
  | .object members => '\x7b' :: printMembers members ++ ['\x7d']

def printItems : List Json → Text
  | [] => []
  | [item] => print item
  | item :: next :: rest => print item ++ ',' :: printItems (next :: rest)

def printMembers : List (Option Text × Json) → Text
  | [] => []
  | [(key, value)] => quote? key ++ ':' :: print value
  | (key, value) :: next :: rest =>
    quote? key ++ ':' :: print value ++ ',' :: printMembers (next :: rest)

end

end SourceTokens.Json
