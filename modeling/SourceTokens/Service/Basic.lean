import SourceTokens.Display
import SourceTokens.Scrub
import SourceTokens.Service.Channel
import SourceTokens.Tokenize
import SourceTokens.Wire.Reply

/-!
The tokenization service. It answers every request it receives with exactly one reply, which
depends on the payload alone, and counts the replies that could be sent. A request that cannot be
served is refused in its reply; only a failure of the channel ends the service.
-/

namespace SourceTokens

structure Tokenizer where
  language : Text
  tokenize : Text → Except LexicalError (List Token)

namespace Tokenizer

def python : Tokenizer := ⟨"python".toList, SourceTokens.tokenize⟩

def replyWith (operation : Operation) (tokens : List Token) : Reply :=
  match operation with
  | .tokens => .tokens tokens
  | .scrub => .tokens (SourceTokens.scrub tokens)
  | .display => .texts (tokens.map Token.display)

def answer (t : Tokenizer) (r : Request) : Reply :=
  match r.bodyFor t.language with
  | .error e => .refusal (.ofRequestFault e)
  | .ok body =>
    match t.tokenize body with
    | .error e => .refusal (.ofLexicalError e)
    | .ok tokens => replyWith r.operation tokens

def replyTo (t : Tokenizer) (payload : List UInt8) : Reply :=
  match Request.decode payload with
  | .error e => .refusal (.ofRequestFault e)
  | .ok r => t.answer r

end Tokenizer

inductive Phase
  | idle
  | handling
  deriving DecidableEq, Repr

structure Service (σ : Type) where
  connection : σ
  tokenizer : Tokenizer
  phase : Phase := .idle
  answered : Nat := 0

namespace Service

variable {σ : Type} [Channel σ]

def busy (s : Service σ) (connection : σ) : Service σ :=
  { s with connection := connection, phase := .handling }

/-- Sends the reply to a payload. A reply that cannot be sent is not counted and not repeated. -/
def sendReply (s : Service σ) (payload : List UInt8) : Except ChannelFault Unit × Service σ :=
  let (outcome, connection) :=
    Channel.send s.connection (Utf8.encode (s.tokenizer.replyTo payload).encode)
  let idle := { s with connection := connection, phase := .idle }
  match outcome with
  | .ok () => (.ok (), { idle with answered := idle.answered + 1 })
  | .error e => (.error e, idle)

def exchange (s : Service σ) : Except ChannelFault Unit × Service σ :=
  match Channel.receive s.connection with
  | (.error e, connection) => (.error e, { s with connection := connection })
  | (.ok payload, connection) => (s.busy connection).sendReply payload

/-- Serves requests until the channel fails, but no more than `limit` of them. The failure is
given unless the limit is met first. -/
def serveFor (limit : Nat) (s : Service σ) : Option ChannelFault × Service σ :=
  match limit with
  | 0 => (none, s)
  | n + 1 =>
    match s.exchange with
    | (.ok (), next) => next.serveFor n
    | (.error e, next) => (some e, next)

/-- Serves the requests that wait in a queue. One more than there are finds it empty. -/
def drain (s : Service Queue) : Option ChannelFault × Service Queue :=
  s.serveFor (s.connection.inbox.length + 1)

end Service

end SourceTokens
