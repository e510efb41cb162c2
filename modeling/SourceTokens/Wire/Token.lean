import SourceTokens.Json.Printer
import SourceTokens.Json.Reader
import SourceTokens.Json.Record
import SourceTokens.Token

/-!
Tokens in documents. A place is written as an array of its line and its column, each of which must
fit 32 bits, a kind as its label, and a token as the record of its kind, its value and its two
places. The physical line of a token is never sent.
-/

namespace SourceTokens

def Json.word? (document : Json) : Option Nat :=
  document.nat?.filter (· < Nat.pow 2 32)

def Position.toJson (p : Position) : Json := .array [.ofNat p.line, .ofNat p.col]

def Position.ofJson? : Json → Option Position
  | .array [line, col] => do some ⟨← line.word?, ← col.word?⟩
  | _ => none

def TokenKind.toJson (kind : TokenKind) : Json := .ofText kind.label

def TokenKind.ofJson? (document : Json) : Option TokenKind := do
  TokenKind.ofLabel? (← document.choice?)

namespace Token

def fieldNames : List Text := ["kind".toList, "value".toList, "start".toList, "end".toList]

def toJson (t : Token) : Json :=
  .record [
    ("kind".toList, some t.kind.toJson),
    ("value".toList, some (.ofText t.value)),
    ("start".toList, some t.start.toJson),
    ("end".toList, some t.stop.toJson)]

def ofJson? (document : Json) : Option Token := do
  match ← document.fields? fieldNames with
  | [some kind, some value, some start, some stop] =>
    some {
      kind := ← TokenKind.ofJson? kind
      value := ← value.text?
      start := ← Position.ofJson? start
      stop := ← Position.ofJson? stop }
  | _ => none

def listToJson (tokens : List Token) : Json := .array (tokens.map toJson)

def listOfJson? (document : Json) : Option (List Token) := do
  (← document.items?).mapM ofJson?

end Token

end SourceTokens
