import SourceTokens.Wire.Token

/-!
Requests and their documents. A request names a language, holds a source text and says what is to
be done with its tokens. Language and text may be absent from a document, and a null says the
same; the operation may be absent too, and then the tokens are sent as they are.
-/

namespace SourceTokens

inductive Operation
  | tokens
  | scrub
  | display
  deriving DecidableEq, Repr

namespace Operation

def all : List Operation := [tokens, scrub, display]

def label : Operation → Text
  | tokens => "lex".toList
  | scrub => "scrub".toList
  | display => "stringify".toList

def ofLabel? (text : Text) : Option Operation := all.find? (·.label == text)

def toJson (operation : Operation) : Json := .ofText operation.label

def ofJson? (document : Json) : Option Operation := do ofLabel? (← document.choice?)

end Operation

structure Request where
  language : Option Text := none
  body : Option Text := none
  operation : Operation := .tokens
  deriving DecidableEq, Repr

inductive RequestFault
  | malformed
  | missingLanguage
  | missingBody
  | unsupportedLanguage (expected got : Text)
  deriving DecidableEq, Repr

def RequestFault.message : RequestFault → Text
  | .malformed => "malformed request: the payload is not a request document".toList
  | .missingLanguage => "request has no `language` field".toList
  | .missingBody => "request has no `body` field".toList
  | .unsupportedLanguage expected got =>
    "unsupported language `".toList ++ got ++ "`, this server handles `".toList ++ expected ++
      "`".toList

namespace Request

def fieldNames : List Text := ["language".toList, "body".toList, "op".toList]

def toJson (r : Request) : Json :=
  .record [
    ("language".toList, r.language.map .ofText),
    ("body".toList, r.body.map .ofText),
    ("op".toList, some r.operation.toJson)]

def ofJson? (document : Json) : Option Request := do
  match ← document.fields? fieldNames with
  | [language, body, operation] =>
    some {
      language := ← Json.optional? Json.text? language
      body := ← Json.optional? Json.text? body
      operation := ← match operation with
        | none => some .tokens
        | some name => Operation.ofJson? name }
  | _ => none

def encode (r : Request) : Text := r.toJson.print

def decode (payload : List UInt8) : Except RequestFault Request :=
  match (Json.ofBytes? payload).bind ofJson? with
  | some r => .ok r
  | none => .error .malformed

/-- The text of a request to a server for the given language. The language is looked at before
the text, and only the case of its ASCII letters is free. -/
def bodyFor (r : Request) (expected : Text) : Except RequestFault Text :=
  match r.language with
  | none => .error .missingLanguage
  | some language =>
    if Text.sameIgnoringAsciiCase language expected then
      match r.body with
      | none => .error .missingBody
      | some body => .ok body
    else .error (.unsupportedLanguage expected language)

end Request

end SourceTokens
