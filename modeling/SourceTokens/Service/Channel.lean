import SourceTokens.Text

/-!
The reply side of an exchange of messages: receive a request, then send its reply. A channel acts
on the state of a connection, and either act may fail. The queue is a channel in memory, which
fails like a closed one when no request is waiting.
-/

namespace SourceTokens

inductive ChannelFault
  | closed
  /-- A socket failed, with the text of its error. -/
  | socket (error : Text)
  deriving DecidableEq, Repr

def ChannelFault.message : ChannelFault → Text
  | .closed => "channel closed".toList
  | .socket error => "zmq: ".toList ++ error

class Channel (σ : Type) where
  receive : σ → Except ChannelFault (List UInt8) × σ
  send : σ → List UInt8 → Except ChannelFault Unit × σ

structure Queue where
  inbox : List (List UInt8) := []
  sent : List (List UInt8) := []
  /-- While this holds, replies cannot be delivered. -/
  refusesReplies : Bool := false
  deriving DecidableEq, Repr

namespace Queue

def push (q : Queue) (payload : List UInt8) : Queue := { q with inbox := q.inbox ++ [payload] }

def receive (q : Queue) : Except ChannelFault (List UInt8) × Queue :=
  match q.inbox with
  | [] => (.error .closed, q)
  | payload :: rest => (.ok payload, { q with inbox := rest })

def send (q : Queue) (reply : List UInt8) : Except ChannelFault Unit × Queue :=
  if q.refusesReplies then (.error .closed, q)
  else (.ok (), { q with sent := q.sent ++ [reply] })

instance : Channel Queue where
  receive := receive
  send := send

end Queue

end SourceTokens
