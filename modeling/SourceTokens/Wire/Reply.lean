import SourceTokens.LexicalError
import SourceTokens.Wire.Request

/-!
Replies and their documents. A reply is a list of tokens, a list of texts or a refusal; its
document does not say which, so a reader takes the first that fits, and an empty list is one of
tokens. The reader keeps the whole document before it decides, so every part of it must be
readable.
-/

namespace SourceTokens

inductive Refusal.Kind
  | request
  | source
  | internal
  deriving DecidableEq, Repr

structure Refusal where
  kind : Refusal.Kind
  message : Text
  position : Option Position := none
  deriving DecidableEq, Repr

inductive Reply
  | tokens (tokens : List Token)
  | texts (texts : List Text)
  | refusal (refusal : Refusal)
  deriving DecidableEq, Repr

namespace Refusal

def Kind.all : List Kind := [.request, .source, .internal]

def Kind.label : Kind → Text
  | .request => "ProtocolError".toList
  | .source => "TokenizeError".toList
  | .internal => "InternalError".toList

def Kind.ofJson? (document : Json) : Option Kind := do
  let name ← document.choice?
  Kind.all.find? (·.label == name)

def ofInternal (message : Text) : Refusal := { kind := .internal, message := message }

def ofRequestFault (e : RequestFault) : Refusal := { kind := .request, message := e.message }

def ofLexicalError (e : LexicalError) : Refusal :=
  { kind := .source, message := e.cause.message, position := some e.position }

def fieldNames : List Text := ["error".toList, "message".toList, "position".toList]

def toJson (r : Refusal) : Json :=
  .record [
    ("error".toList, some (.ofText r.kind.label)),
    ("message".toList, some (.ofText r.message)),
    ("position".toList, r.position.map Position.toJson)]

def ofJson? (document : Json) : Option Refusal := do
  match ← document.fields? fieldNames with
  | [some kind, some message, position] =>
    some {
      kind := ← Kind.ofJson? kind
      message := ← message.text?
      position := ← Json.optional? Position.ofJson? position }
  | _ => none

end Refusal

namespace Reply

def isRefusal : Reply → Bool
  | .refusal _ => true
  | _ => false

def depthLimit : Nat := 127

def toJson : Reply → Json
  | .tokens list => Token.listToJson list
  | .texts list => .array (list.map .ofText)
  | .refusal r => r.toJson

def textsOfJson? (document : Json) : Option (List Text) := do
  (← document.items?).mapM Json.text?

def ofJson? (document : Json) : Option Reply :=
  if document.isReadable depthLimit then
    ((Token.listOfJson? document).map .tokens <|> (textsOfJson? document).map .texts) <|>
      (Refusal.ofJson? document).map .refusal
  else none

def encode (r : Reply) : Text := r.toJson.print

def decode? (payload : List UInt8) : Option Reply := (Json.ofBytes? payload).bind ofJson?

end Reply

end SourceTokens
