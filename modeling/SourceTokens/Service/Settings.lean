import SourceTokens.Service.Basic

/-!
What a service is started with. The configured language must be that of the tokenizer, up to the
case of ASCII letters; this is looked at before the endpoint.
-/

namespace SourceTokens

structure Settings where
  endpoint : Text := "tcp://127.0.0.1:32132".toList
  language : Text := "python".toList
  deriving DecidableEq, Repr

inductive ServiceFault
  | transport (error : ChannelFault)
  | unsupportedLanguage (configured available : Text)
  deriving DecidableEq, Repr

def ServiceFault.message : ServiceFault → Text
  | .transport e => "transport failure: ".toList ++ e.message
  | .unsupportedLanguage configured available =>
    "configured language `".toList ++ configured ++ "` is not served by the `".toList ++
      available ++ "` tokenizer".toList

namespace Settings

def requireLanguage (c : Settings) (t : Tokenizer) : Except ServiceFault Unit :=
  if Text.sameIgnoringAsciiCase c.language t.language then .ok ()
  else .error (.unsupportedLanguage c.language t.language)

/-- Serves on the endpoint. How that ends, from the binding of the endpoint on, is given. -/
def serve (c : Settings) (t : Tokenizer) (listen : Text → Except ChannelFault Unit) :
    Except ServiceFault Unit :=
  match c.requireLanguage t with
  | .error e => .error e
  | .ok () => (listen c.endpoint).mapError .transport

end Settings

end SourceTokens
