import Mathlib.Data.List.Basic
import SourceTokens.Service.Basic

/-!
What a service does with its channel. The channel is watched by one that keeps a record of every
request taken and every reply sent, and that changes nothing else. An exchange leaves one of two
records: the receipt failed and nothing was sent, or a payload was taken and the reply to it was
sent once, whatever became of it. The record of any calls is put together from such exchanges, so
the replies depend on nothing but their own payloads.
-/

namespace SourceTokens

inductive ChannelEvent
  | received (outcome : Except ChannelFault (List UInt8))
  | sent (reply : List UInt8) (outcome : Except ChannelFault Unit)

namespace ChannelEvent

def delivered : ChannelEvent → Bool
  | .sent _ (.ok ()) => true
  | _ => false

end ChannelEvent

structure Watched (σ : Type) where
  channel : σ
  events : List ChannelEvent := []

namespace Watched

variable {σ : Type} [Channel σ]

def receive (w : Watched σ) : Except ChannelFault (List UInt8) × Watched σ :=
  let (outcome, channel) := Channel.receive w.channel
  (outcome, ⟨channel, w.events ++ [.received outcome]⟩)

def send (w : Watched σ) (reply : List UInt8) : Except ChannelFault Unit × Watched σ :=
  let (outcome, channel) := Channel.send w.channel reply
  (outcome, ⟨channel, w.events ++ [.sent reply outcome]⟩)

instance : Channel (Watched σ) where
  receive := receive
  send := send

theorem of_receive {w next : Watched σ} {outcome : Except ChannelFault (List UInt8)}
    (h : Channel.receive w = (outcome, next)) :
    Channel.receive w.channel = (outcome, next.channel) ∧
      next.events = w.events ++ [.received outcome] := by
  obtain ⟨rfl, rfl⟩ := Prod.mk.inj h
  exact ⟨rfl, rfl⟩

theorem of_send {w next : Watched σ} {reply : List UInt8} {outcome : Except ChannelFault Unit}
    (h : Channel.send w reply = (outcome, next)) :
    Channel.send w.channel reply = (outcome, next.channel) ∧
      next.events = w.events ++ [.sent reply outcome] := by
  obtain ⟨rfl, rfl⟩ := Prod.mk.inj h
  exact ⟨rfl, rfl⟩

end Watched

def Tokenizer.replyBytes (t : Tokenizer) (payload : List UInt8) : List UInt8 :=
  Utf8.encode (t.replyTo payload).encode

inductive ExchangeRecord (t : Tokenizer) : Except ChannelFault Unit → List ChannelEvent → Prop
  | unreceived (e : ChannelFault) : ExchangeRecord t (.error e) [.received (.error e)]
  | replied (payload : List UInt8) (outcome : Except ChannelFault Unit) :
      ExchangeRecord t outcome [.received (.ok payload), .sent (t.replyBytes payload) outcome]

/-- A record in which each receipt that succeeded is followed by the reply to what it gave, and by
nothing else before the next receipt. -/
def Alternates (t : Tokenizer) : List ChannelEvent → Prop
  | [] => True
  | .received (.error _) :: rest => Alternates t rest
  | .received (.ok payload) :: .sent reply _ :: rest =>
    reply = t.replyBytes payload ∧ Alternates t rest
  | _ => False

theorem Alternates.append {t : Tokenizer} {a b : List ChannelEvent} (ha : Alternates t a)
    (hb : Alternates t b) : Alternates t (a ++ b) := by
  fun_induction Alternates t a with
  | case1 => exact hb
  | case2 e rest ih => exact ih ha
  | case3 payload reply outcome rest ih => exact ⟨ha.1, ih ha.2⟩
  | case4 => exact ha.elim

theorem ExchangeRecord.alternates {t : Tokenizer} {outcome : Except ChannelFault Unit}
    {record : List ChannelEvent} (h : ExchangeRecord t outcome record) : Alternates t record := by
  cases h with
  | unreceived e => exact trivial
  | replied payload outcome => exact ⟨rfl, trivial⟩

namespace Service

variable {σ : Type}

structure Leaves (s : Service (Watched σ)) (record : List ChannelEvent)
    (next : Service (Watched σ)) : Prop where
  events : next.connection.events = s.connection.events ++ record
  answered : next.answered = s.answered + record.countP ChannelEvent.delivered
  alternates : Alternates s.tokenizer record
  phase : next.phase = s.phase
  tokenizer : next.tokenizer = s.tokenizer

theorem Leaves.refl (s : Service (Watched σ)) : Leaves s [] s where
  events := (List.append_nil _).symm
  answered := rfl
  alternates := trivial
  phase := rfl
  tokenizer := rfl

theorem Leaves.trans {a b : List ChannelEvent} {s next last : Service (Watched σ)}
    (ha : Leaves s a next) (hb : Leaves next b last) : Leaves s (a ++ b) last where
  events := by rw [hb.events, ha.events, List.append_assoc]
  answered := by rw [hb.answered, ha.answered, List.countP_append, Nat.add_assoc]
  alternates := by
    have halternates := hb.alternates
    rw [ha.tokenizer] at halternates
    exact ha.alternates.append halternates
  phase := hb.phase.trans ha.phase
  tokenizer := hb.tokenizer.trans ha.tokenizer

variable [Channel σ]

/-- What can be asked of a service: one exchange, or to serve until its channel fails. The latter
is cut off at a limit, so that an endless service can be looked at on its way. -/
inductive Call
  | exchange
  | serve (limit : Nat)

def Call.limit : Call → Nat
  | .exchange => 1
  | .serve limit => limit

def perform (s : Service σ) : Call → Option ChannelFault × Service σ
  | .exchange =>
    match s.exchange with
    | (.ok (), next) => (none, next)
    | (.error e, next) => (some e, next)
  | .serve limit => s.serveFor limit

def after (s : Service σ) (calls : List Call) : Service σ :=
  calls.foldl (fun s call => (s.perform call).2) s

def fresh (t : Tokenizer) (connection : σ) : Service σ :=
  { connection := connection, tokenizer := t }

/-- Serving without a limit: exchanges that succeed, up to the first that fails. -/
inductive Serves : Service σ → ChannelFault → Service σ → Prop
  | fails {s next : Service σ} {e : ChannelFault} (h : s.exchange = (.error e, next)) :
      Serves s e next
  | goesOn {s next last : Service σ} {e : ChannelFault} (h : s.exchange = (.ok (), next))
      (hlater : Serves next e last) : Serves s e last

/-- Serving without a limit ends as serving with some limit does. -/
theorem serves_iff {s last : Service σ} {e : ChannelFault} :
    Serves s e last ↔ ∃ limit, s.serveFor limit = (some e, last) := by
  constructor
  · intro h
    induction h with
    | fails h => exact ⟨1, by simp only [serveFor, h]⟩
    | goesOn h hlater ih =>
      obtain ⟨limit, hlimit⟩ := ih
      exact ⟨limit + 1, by simp only [serveFor, h, hlimit]⟩
  · rintro ⟨limit, hlimit⟩
    induction limit generalizing s with
    | zero => cases hlimit
    | succ n ih =>
      rw [serveFor] at hlimit
      split at hlimit
      · rename_i next hnext
        exact .goesOn hnext (ih hlimit)
      · rename_i f next hnext
        cases hlimit
        exact .fails hnext

inductive CallRecord (t : Tokenizer) : Call → Option ChannelFault → List ChannelEvent → Prop
  | exchanged {record : List ChannelEvent} (h : ExchangeRecord t (.ok ()) record) :
      CallRecord t .exchange none record
  | failed {e : ChannelFault} {record : List ChannelEvent}
      (h : ExchangeRecord t (.error e) record) : CallRecord t .exchange (some e) record
  | limited {limit : Nat} {served : List (List ChannelEvent)}
      (hserved : ∀ record ∈ served, ExchangeRecord t (.ok ()) record)
      (hlimit : served.length = limit) : CallRecord t (.serve limit) none served.flatten
  | stopped {limit : Nat} {e : ChannelFault} {served : List (List ChannelEvent)}
      {last : List ChannelEvent} (hserved : ∀ record ∈ served, ExchangeRecord t (.ok ()) record)
      (hlast : ExchangeRecord t (.error e) last) (hlimit : served.length < limit) :
      CallRecord t (.serve limit) (some e) (served.flatten ++ last)

/-- One more exchange that succeeds may stand in front of what serving leaves. -/
theorem CallRecord.goesOn {t : Tokenizer} {limit : Nat} {fault : Option ChannelFault}
    {first later : List ChannelEvent} (h : CallRecord t (.serve limit) fault later)
    (hfirst : ExchangeRecord t (.ok ()) first) :
    CallRecord t (.serve (limit + 1)) fault (first ++ later) := by
  cases h with
  | @limited _ served hserved hlimit =>
    rw [← List.flatten_cons]
    refine .limited (List.forall_mem_cons.2 ⟨hfirst, hserved⟩) ?_
    rw [List.length_cons, hlimit]
  | @stopped _ e served last hserved hlast hlimit =>
    rw [← List.append_assoc, ← List.flatten_cons]
    refine .stopped (List.forall_mem_cons.2 ⟨hfirst, hserved⟩) hlast ?_
    rw [List.length_cons]
    exact Nat.succ_lt_succ hlimit

/-- The step lemma: either nothing could be received, or one payload was and its reply was sent. -/
theorem exchange_cases (s : Service σ) :
    (∃ e connection, Channel.receive s.connection = (.error e, connection) ∧
      s.exchange = (.error e, { s with connection := connection })) ∨
    ∃ payload received outcome connection, Channel.receive s.connection = (.ok payload, received) ∧
      Channel.send received (s.tokenizer.replyBytes payload) = (outcome, connection) ∧
      s.exchange = (outcome, { s with
        connection := connection, phase := .idle
        answered := s.answered + outcome.toBool.toNat }) := by
  rcases hreceive : Channel.receive s.connection with ⟨_ | payload, received⟩
  · exact Or.inl ⟨_, received, rfl, by simp only [exchange, hreceive]⟩
  · right
    rcases hsend : Channel.send received (s.tokenizer.replyBytes payload) with ⟨outcome, connection⟩
    refine ⟨payload, received, outcome, connection, rfl, hsend, ?_⟩
    rw [Tokenizer.replyBytes] at hsend
    cases outcome <;> simp only [exchange, hreceive, sendReply, busy, hsend] <;> rfl

section Watched

variable {s : Service (Watched σ)}

theorem exchange_leaves (hidle : s.phase = .idle) :
    ∃ record, ExchangeRecord s.tokenizer s.exchange.1 record ∧ Leaves s record s.exchange.2 := by
  rcases exchange_cases s with ⟨e, connection, hreceive, hexchange⟩ |
    ⟨payload, received, outcome, connection, hreceive, hsend, hexchange⟩
  · obtain ⟨-, hevents⟩ := Watched.of_receive hreceive
    rw [hexchange]
    exact ⟨_, .unreceived e, hevents, rfl, trivial, rfl, rfl⟩
  · obtain ⟨-, hreceived⟩ := Watched.of_receive hreceive
    obtain ⟨-, hevents⟩ := Watched.of_send hsend
    rw [hreceived, List.append_assoc] at hevents
    rw [hexchange]
    refine ⟨_, .replied payload outcome, hevents, ?_, ⟨rfl, trivial⟩, hidle.symm, rfl⟩
    cases outcome <;> rfl

/-- The run lemma: exchanges that succeed, and at most one that fails, at the end. -/
theorem serveFor_leaves (limit : Nat) (hidle : s.phase = .idle) :
    ∃ record, CallRecord s.tokenizer (.serve limit) (s.serveFor limit).1 record ∧
      Leaves s record (s.serveFor limit).2 := by
  induction limit generalizing s with
  | zero => exact ⟨[], .limited (List.forall_mem_nil _) rfl, Leaves.refl s⟩
  | succ n ih =>
    obtain ⟨first, hfirst, hleaves⟩ := exchange_leaves hidle
    rw [serveFor]
    rcases hexchange : s.exchange with ⟨e | ⟨⟩, next⟩
    · rw [hexchange] at hfirst hleaves
      exact ⟨first, .stopped (List.forall_mem_nil _) hfirst (Nat.succ_pos n), hleaves⟩
    · rw [hexchange] at hfirst hleaves
      obtain ⟨later, hlater, hrest⟩ := ih (hleaves.phase.trans hidle)
      refine ⟨first ++ later, ?_, hleaves.trans hrest⟩
      rw [hleaves.tokenizer] at hlater
      exact hlater.goesOn hfirst

/-- A call of an idle service leaves it idle, with the record of the call. -/
theorem perform_leaves (call : Call) (hidle : s.phase = .idle) :
    ∃ record, CallRecord s.tokenizer call (s.perform call).1 record ∧
      Leaves s record (s.perform call).2 := by
  cases call with
  | serve limit => exact serveFor_leaves limit hidle
  | exchange =>
    obtain ⟨record, hrecord, hleaves⟩ := exchange_leaves hidle
    rw [perform]
    rcases hexchange : s.exchange with ⟨e | ⟨⟩, next⟩
    · rw [hexchange] at hrecord hleaves
      exact ⟨record, .failed hrecord, hleaves⟩
    · rw [hexchange] at hrecord hleaves
      exact ⟨record, .exchanged hrecord, hleaves⟩

/-- Calls of an idle service leave it idle, with a record in which the replies alternate with the
requests. -/
theorem after_leaves (calls : List Call) (hidle : s.phase = .idle) :
    ∃ record, Leaves s record (s.after calls) := by
  induction calls generalizing s with
  | nil => exact ⟨[], Leaves.refl s⟩
  | cons call later ih =>
    obtain ⟨first, -, hfirst⟩ := perform_leaves call hidle
    obtain ⟨rest, hrest⟩ := ih (hfirst.phase.trans hidle)
    exact ⟨first ++ rest, hfirst.trans hrest⟩

def unwatched (s : Service (Watched σ)) : Service σ :=
  { s with connection := s.connection.channel }

/-- Watching a channel changes nothing. -/
theorem exchange_unwatched (s : Service (Watched σ)) :
    s.unwatched.exchange = (s.exchange.1, s.exchange.2.unwatched) := by
  rcases exchange_cases s with ⟨e, connection, hreceive, hexchange⟩ |
    ⟨payload, received, outcome, connection, hreceive, hsend, hexchange⟩
  · obtain ⟨hchannel, -⟩ := Watched.of_receive hreceive
    rw [hexchange]
    simp only [exchange, unwatched, hchannel]
  · obtain ⟨hreceived, -⟩ := Watched.of_receive hreceive
    obtain ⟨hsent, -⟩ := Watched.of_send hsend
    rw [Tokenizer.replyBytes] at hsent
    rw [hexchange]
    cases outcome <;>
      simp only [exchange, unwatched, hreceived, sendReply, busy, hsent] <;> rfl

theorem serveFor_unwatched (limit : Nat) (s : Service (Watched σ)) :
    s.unwatched.serveFor limit = ((s.serveFor limit).1, (s.serveFor limit).2.unwatched) := by
  induction limit generalizing s with
  | zero => rfl
  | succ n ih =>
    rw [serveFor, exchange_unwatched, serveFor]
    rcases s.exchange with ⟨e | ⟨⟩, next⟩
    · rfl
    · exact ih next

theorem perform_unwatched (call : Call) (s : Service (Watched σ)) :
    s.unwatched.perform call = ((s.perform call).1, (s.perform call).2.unwatched) := by
  cases call with
  | serve limit => exact serveFor_unwatched limit s
  | exchange =>
    rw [perform, exchange_unwatched, perform]
    rcases s.exchange with ⟨e | ⟨⟩, next⟩ <;> rfl

theorem after_unwatched (calls : List Call) (s : Service (Watched σ)) :
    s.unwatched.after calls = (s.after calls).unwatched := by
  induction calls generalizing s with
  | nil => rfl
  | cons call later ih =>
    rw [after, List.foldl_cons, perform_unwatched]
    exact ih (s.perform call).2

end Watched

end Service

inductive QueueStep
  | push (payload : List UInt8)
  /-- From now on replies cannot be delivered, or can again. -/
  | refuse (refuses : Bool)
  | ask (call : Service.Call)

namespace QueueStep

def run (s : Service Queue) : QueueStep → Service Queue
  | .push payload => { s with connection := s.connection.push payload }
  | .refuse refuses => { s with connection := { s.connection with refusesReplies := refuses } }
  | .ask call => (s.perform call).2

end QueueStep

/-- The payloads that wait in a queue, and those that were taken while replies could be delivered. -/
structure Ledger where
  waiting : List (List UInt8) := []
  served : List (List UInt8) := []
  refuses : Bool := false

namespace Ledger

/-- Takes up to so many payloads, or only one when its reply cannot be delivered. -/
def take (l : Ledger) (limit : Nat) : Ledger :=
  if l.refuses then { l with waiting := l.waiting.drop (min 1 limit) }
  else { l with waiting := l.waiting.drop limit, served := l.served ++ l.waiting.take limit }

def step (l : Ledger) : QueueStep → Ledger
  | .push payload => { l with waiting := l.waiting ++ [payload] }
  | .refuse refuses => { l with refuses := refuses }
  | .ask call => l.take call.limit

def service (t : Tokenizer) (l : Ledger) : Service Queue where
  connection := ⟨l.waiting, l.served.map t.replyBytes, l.refuses⟩
  tokenizer := t
  answered := l.served.length

theorem take_of_waiting_nil {l : Ledger} (limit : Nat) (h : l.waiting = []) : l.take limit = l := by
  obtain ⟨waiting, served, refuses⟩ := l
  cases h
  cases refuses <;> simp [take]

theorem exchange_service (t : Tokenizer) (l : Ledger) :
    (l.service t).exchange =
      (if l.waiting = [] ∨ l.refuses then .error .closed else .ok (), (l.take 1).service t) := by
  obtain ⟨waiting, served, refuses⟩ := l
  cases waiting with
  | nil =>
    rw [take_of_waiting_nil 1 rfl]
    rfl
  | cons payload rest =>
    cases refuses with
    | true => rfl
    | false =>
      simp only [service, Service.exchange, Channel.receive, Queue.receive, Service.busy,
        Service.sendReply, Channel.send, Queue.send, take]
      simp [Tokenizer.replyBytes]

theorem take_succ {l : Ledger} (limit : Nat) (h : l.refuses = false) :
    l.take (limit + 1) = (l.take 1).take limit := by
  obtain ⟨waiting, served, refuses⟩ := l
  cases h
  cases waiting <;> simp [take]

theorem take_succ_of_refuses {l : Ledger} (limit : Nat) (h : l.refuses = true) :
    l.take (limit + 1) = l.take 1 := by
  simp [take, h]

theorem serveFor_service (t : Tokenizer) (limit : Nat) (l : Ledger) :
    ((l.service t).serveFor limit).2 = (l.take limit).service t := by
  induction limit generalizing l with
  | zero =>
    obtain ⟨waiting, served, refuses⟩ := l
    cases refuses <;> simp [take, Service.serveFor]
  | succ n ih =>
    rw [Service.serveFor, exchange_service]
    by_cases hnone : l.waiting = []
    · rw [if_pos (Or.inl hnone), take_of_waiting_nil _ hnone, take_of_waiting_nil _ hnone]
    · cases hrefuses : l.refuses with
      | true => rw [if_pos (Or.inr rfl), take_succ_of_refuses n hrefuses]
      | false =>
        rw [if_neg (by simp [hnone]), take_succ n hrefuses]
        exact ih (l.take 1)

theorem perform_service (t : Tokenizer) (call : Service.Call) (l : Ledger) :
    ((l.service t).perform call).2 = (l.take call.limit).service t := by
  cases call with
  | serve limit => exact serveFor_service t limit l
  | exchange =>
    rw [Service.perform, exchange_service]
    split <;> simp_all [Service.Call.limit]

theorem run_service (t : Tokenizer) (step : QueueStep) (l : Ledger) :
    step.run (l.service t) = (l.step step).service t := by
  cases step with
  | push payload => rfl
  | refuse refuses => rfl
  | ask call => exact perform_service t call l

/-- A queue and its service go through any steps as their ledger does. -/
theorem foldl_service (t : Tokenizer) (steps : List QueueStep) (l : Ledger) :
    steps.foldl QueueStep.run (l.service t) = (steps.foldl step l).service t := by
  induction steps generalizing l with
  | nil => rfl
  | cons first later ih => rw [List.foldl_cons, run_service, ih, List.foldl_cons]

end Ledger

/-- A service answers each request it takes with one reply, which depends on the payload alone.
Between its calls it is idle, and it counts the replies that could be sent. Serving ends with the
first failure of the channel only. On a queue the replies are those to the payloads taken while
they could be delivered. -/
theorem service_answers (t : Tokenizer) :
    (∀ {σ : Type} [Channel σ] (connection : σ) (calls : List Service.Call),
      let s := (Service.fresh t (Watched.mk connection [])).after calls
      s.unwatched = (Service.fresh t connection).after calls ∧ s.phase = .idle ∧
        Alternates t s.connection.events ∧
        s.answered = s.connection.events.countP ChannelEvent.delivered ∧
        ∀ call, ∃ record, Service.CallRecord t call (s.perform call).1 record ∧
          (s.perform call).2.connection.events = s.connection.events ++ record ∧
          (s.perform call).2.answered = s.answered + record.countP ChannelEvent.delivered) ∧
    (∀ {σ : Type} [Channel σ] (s last : Service σ) (e : ChannelFault),
      Service.Serves s e last ↔ ∃ limit, s.serveFor limit = (some e, last)) ∧
    ∀ steps : List QueueStep,
      let s := steps.foldl QueueStep.run (Service.fresh t {})
      let l := steps.foldl Ledger.step {}
      s.connection = ⟨l.waiting, l.served.map t.replyBytes, l.refuses⟩ ∧
        s.phase = .idle ∧ s.answered = l.served.length := by
  refine ⟨?_, fun s last e => Service.serves_iff, ?_⟩
  · intro σ _ connection calls s
    have hidle : (Service.fresh t (Watched.mk connection [])).phase = .idle := rfl
    obtain ⟨record, hleaves⟩ := Service.after_leaves calls hidle
    have hevents : s.connection.events = record := hleaves.events
    refine ⟨(Service.after_unwatched calls _).symm, hleaves.phase, ?_, ?_, ?_⟩
    · rw [hevents]
      exact hleaves.alternates
    · rw [hevents, hleaves.answered]
      exact Nat.zero_add _
    · intro call
      obtain ⟨more, hmore, hnext⟩ := Service.perform_leaves call hleaves.phase
      rw [hleaves.tokenizer] at hmore
      exact ⟨more, hmore, hnext.events, hnext.answered⟩
  · intro steps s l
    have hservice : s = l.service t := Ledger.foldl_service t steps {}
    rw [hservice]
    exact ⟨rfl, rfl, rfl⟩

end SourceTokens
