import SourceTokens.Proofs.ByteReaders
import SourceTokens.Tokenize

/-!
The lexer by byte offsets. It goes through the physical lines of a source and carries the tokens so
far, the open blocks, the open brackets and what the line before left unfinished. Everything that
could go wrong on the way is a fault: a slice that does not lie between two characters, a number
that is not found, a step that does not advance, a stack without a block. Counters have 32 bits. A
machine that checks them meets a fault when one is exhausted, and any other machine lets it start
over.

One step passes over the blanks at an offset and takes what stands behind them. It is that front of
the rest of the line which a scan by characters takes.
-/

namespace SourceTokens.ByteLexer

open StringLiteral LineScan Utf8

def word (n : Nat) : Nat := n % UInt32.size

theorem word_of_lt {n : Nat} (h : n < UInt32.size) : word n = n := Nat.mod_eq_of_lt h

/-- The number that a counter is set to. -/
def count (checked : Bool) (n : Nat) : Except Fault Nat :=
  if n < UInt32.size then .ok n
  else if checked then .error .overflow
  else .ok (word n)

/-- A result with a property is given, or a counter is exhausted that is checked. -/
inductive Gives {α : Type} (checked : Bool) (p : α → Prop) : Except Fault α → Prop
  | result (a : α) (h : p a) : Gives checked p (.ok a)
  | overflow (hchecked : checked = true) : Gives checked p (.error .overflow)

section Gives

variable {α β : Type} {checked : Bool} {p p' : α → Prop} {q : β → Prop} {x : Except Fault α}

theorem Gives.mono (h : Gives checked p x) (himp : ∀ a, p a → p' a) : Gives checked p' x := by
  cases h with
  | result a ha => exact .result a (himp a ha)
  | overflow hchecked => exact .overflow hchecked

theorem Gives.bind {f : α → Except Fault β} (h : Gives checked p x)
    (hf : ∀ a, p a → Gives checked q (f a)) : Gives checked q (x >>= f) := by
  cases h with
  | result a ha => exact hf a ha
  | overflow hchecked => exact .overflow hchecked

theorem Gives.map {f : α → β} (h : Gives checked p x) (hf : ∀ a, p a → q (f a)) :
    Gives checked q (x.map f) := by
  cases h with
  | result a ha => exact .result (f a) (hf a ha)
  | overflow hchecked => exact .overflow hchecked

theorem Gives.exists_ok (h : Gives false p x) : ∃ a, x = .ok a := by
  cases h with
  | result a ha => exact ⟨a, rfl⟩
  | overflow hchecked => cases hchecked

theorem Gives.eq_overflow {fault : Fault} (h : Gives checked p x) (hx : x = .error fault) :
    fault = .overflow := by
  cases h with
  | result a ha => cases hx
  | overflow hchecked => exact (Except.error.inj hx).symm

theorem count_of_lt {n : Nat} (h : n < UInt32.size) : count checked n = .ok n := if_pos h

theorem count_of_exhausted {n : Nat} (h : UInt32.size ≤ n) : count true n = .error .overflow := by
  rw [count, if_neg (Nat.not_lt.2 h), if_pos rfl]

theorem gives_count (checked : Bool) (n : Nat) : Gives checked (fun _ => True) (count checked n) := by
  unfold count
  split
  · exact .result n trivial
  · split
    · exact .overflow ‹_›
    · exact .result _ trivial

end Gives

structure OpenString where
  start : Position
  text : Text
  line : Text
  delimiter : Delimiter
  deriving DecidableEq, Repr

structure Machine where
  /-- Whether an exhausted counter is a fault. -/
  checked : Bool
  tokens : List Token := []
  /-- The widths of the open blocks, innermost first. -/
  levels : List Nat := [0]
  depth : Nat := 0
  continued : Bool := false
  opened : Option OpenString := none
  deriving DecidableEq, Repr

structure Line where
  text : Text
  number : Nat

def Line.position (line : Line) (pos : Nat) : Except Fault Position := do
  let (before, _) ← splitAt line.text pos
  return ⟨line.number, word before.length⟩

namespace Machine

def push (m : Machine) (kind : TokenKind) (start stop : Nat) (line : Line) :
    Except Fault Machine := do
  let value ← slice line.text start stop
  let first ← line.position start
  let last ← line.position stop
  return { m with tokens := m.tokens ++ [⟨kind, value, first, last, some line.text⟩] }

def openString (m : Machine) (line : Line) (start : Nat) (d : Delimiter) :
    Except Fault Machine := do
  let first ← line.position start
  let (_, text) ← splitAt line.text start
  return { m with opened := some ⟨first, text, line.text, d⟩ }

def lexTriple (m : Machine) (line : Line) (start quoteAt : Nat) (q : Quote) :
    Except Fault (Machine × Nat) :=
  match closerEnd (encode line.text) ⟨q, true⟩ (quoteAt + 3) with
  | some stop => do return (← m.push .string start stop line, stop)
  | none => do return (← m.openString line start ⟨q, true⟩, byteCount line.text)

/-- Reads the string whose letters begin at an offset, with a single quote at another. Letters in
front of a quote that is not closed are left where they are. -/
def lexSingle (m : Machine) (line : Line) (start quoteAt : Nat) (q : Quote) :
    Except Fault (Machine × Nat) := do
  match ← singleQuoted line.text q (quoteAt + 1) with
  | .closed stop => return (← m.push .string start stop line, stop)
  | .continued => return (← m.openString line start ⟨q, false⟩, byteCount line.text)
  | .unterminated =>
    if quoteAt = start then return (← m.push .unrecognized start (start + 1) line, start + 1)
    else return (m, start)

/-- Reads the string whose letters begin at one offset and whose quote stands at another. The second
result is the offset to go on from, which is that of the letters when no string is there. -/
def lexString (m : Machine) (line : Line) (start quoteAt : Nat) :
    Except Fault (Machine × Nat) :=
  match (encode line.text)[quoteAt]? with
  | none => .error .outOfBounds
  | some b => do
    let q : Quote := if asciiOf? b = some Quote.single.char then .single else .double
    let (_, rest) ← splitAt line.text quoteAt
    if (Delimiter.text ⟨q, true⟩).isPrefixOf rest then m.lexTriple line start quoteAt q
    else m.lexSingle line start quoteAt q

def depthAfterChar (m : Machine) (c : Char) : Except Fault Nat :=
  if c = '(' ∨ c = '[' ∨ c = '\x7b' then count m.checked (m.depth + 1)
  else if c = ')' ∨ c = ']' ∨ c = '\x7d' then .ok (m.depth - 1)
  else .ok m.depth

end Machine

inductive Step
  | finished (m : Machine)
  | goesOn (m : Machine) (pos : Nat)

namespace Machine

def take (m : Machine) (kind : TokenKind) (start stop : Nat) (line : Line) : Except Fault Step := do
  return .goesOn (← m.push kind start stop line) stop

def takeRun (m : Machine) (kind : TokenKind) (member : Char → Bool) (start : Nat) (line : Line) :
    Except Fault Step := do
  m.take kind start (← runStop member line.text start) line

def lexNumber (m : Machine) (line : Line) (start : Nat) : Except Fault Step :=
  match numberEnd (encode line.text) start with
  | none => .error .noNumber
  | some stop => m.take .number start stop line

def lexQuote (m : Machine) (line : Line) (start : Nat) : Except Fault Step := do
  let (next, stop) ← m.lexString line start start
  return .goesOn next stop

def lexLetters (m : Machine) (line : Line) (start : Nat) (rest : Text) : Except Fault Step :=
  match prefixLength? rest with
  | none => m.takeRun .name Word.isContinue start line
  | some n => do
    let (next, stop) ← m.lexString line start (start + n)
    if stop = start then next.takeRun .name Word.isContinue start line
    else return .goesOn next stop

def lexSymbol (m : Machine) (line : Line) (start : Nat) (c : Char) (rest : Text) :
    Except Fault Step :=
  match operatorLength? rest with
  | none => m.take .unrecognized start (start + (encodeChar c).length) line
  | some n => do
    let depth ← m.depthAfterChar c
    { m with depth := depth }.take .operator start (start + n) line

def lexLexeme (m : Machine) (line : Line) (start : Nat) (c : Char) (rest : Text) :
    Except Fault Step :=
  if c.isDigit ∨ c = '.' ∧ (asciiAt (encode line.text) (start + 1)).any Char.isDigit then
    m.lexNumber line start
  else if (Quote.ofChar? c).isSome then m.lexQuote line start
  else if Word.isStart c then m.lexLetters line start rest
  else if Word.isContinue c then m.takeRun .unrecognized Word.isContinue start line
  else m.lexSymbol line start c rest

def stepAt (m : Machine) (line : Line) (start : Nat) (c : Char) (rest : Text) :
    Except Fault Step :=
  if c = '\\' then
    if isContinuation rest then .ok (.finished { m with continued := true })
    else m.take .unrecognized start (start + 1) line
  else if c = '\n' then m.take (lineBreakKind m.depth) start (byteCount line.text) line
  else if c = '\r' ∧ ['\r', '\n'].isPrefixOf rest then
    m.take (lineBreakKind m.depth) start (start + 2) line
  else if c = '#' then m.takeRun .comment (!Text.isBreak ·) start line
  else m.lexLexeme line start c rest

def step (m : Machine) (line : Line) (pos : Nat) : Except Fault Step := do
  let start := blanksEnd (encode line.text) pos
  let (_, rest) ← splitAt line.text start
  match rest with
  | [] => return .finished m
  | c :: _ => m.stepAt line start c rest

def scanLine (m : Machine) (line : Line) (pos : Nat) : Except Fault Machine :=
  if pos < byteCount line.text then
    match m.step line pos with
    | .error e => .error e
    | .ok (.finished next) => .ok next
    | .ok (.goesOn next stop) =>
      if pos < stop then next.scanLine line stop else .error .noProgress
  else .ok m
termination_by byteCount line.text - pos

end Machine

def indentation (checked : Bool) (bytes : List UInt8) (column pos : Nat) :
    Except Fault (Nat × Nat) :=
  match hc : asciiAt bytes pos with
  | none => .ok (column, pos)
  | some c =>
    if Text.isBlank c then do
      let next ← count checked (Indentation.columnAfter column c)
      indentation checked bytes next (pos + 1)
    else .ok (column, pos)
termination_by bytes.length - pos
decreasing_by
  have hlt := lt_of_asciiAt hc
  omega

namespace Machine

def closeBlocks (line : Line) (pos column : Nat) : List Nat → Machine → Except Fault Machine
  | [], _ => .error .noBlock
  | level :: levels, m =>
    if column < level then do
      closeBlocks line pos column levels
        (← { m with levels := levels }.push .dedent pos pos line)
    else .ok m

def lexBlocks (m : Machine) (line : Line) (column pos : Nat) :
    Except Fault (Except LexicalError (Machine × Option Nat)) :=
  match m.levels with
  | [] => .error .noBlock
  | top :: _ =>
    if top < column then do
      let deeper := { m with levels := column :: m.levels }
      return .ok (← deeper.push .indent 0 pos line, some pos)
    else if column < top then
      if m.levels.contains column then do
        return .ok (← closeBlocks line pos column m.levels m, some pos)
      else do
        return .error ⟨.inconsistentDedent, ← line.position pos, some line.text⟩
    else .ok (.ok (m, some pos))

/-- Reads the start of a line that may begin a statement. The offset that is given is that of the
code of the line, if it has any. -/
def lexIndentation (m : Machine) (line : Line) :
    Except Fault (Except LexicalError (Machine × Option Nat)) := do
  let bytes := encode line.text
  let (column, pos) ← indentation m.checked bytes 0 0
  if pos = byteCount line.text then return .ok (m, none)
  match bytes[pos]? with
  | none => .error .outOfBounds
  | some b =>
    if asciiOf? b = some '#' then
      let (_, rest) ← splitAt line.text pos
      let stop := pos + byteCount (Text.dropBreaks rest)
      let m ← m.push .comment pos stop line
      return .ok (← m.push .lineBreak stop (byteCount line.text) line, none)
    else if asciiOf? b = some '\r' ∨ asciiOf? b = some '\n' then
      return .ok (← m.push .lineBreak pos (byteCount line.text) line, none)
    else m.lexBlocks line column pos

def lexLine (m : Machine) (line : Line) : Except Fault (Except LexicalError Machine) := do
  match m.opened with
  | some s =>
    let m := { m with opened := none }
    match closerEnd (encode line.text) s.delimiter 0 with
    | some stop =>
      let (body, _) ← splitAt line.text stop
      let last ← line.position stop
      let token : Token := ⟨.string, s.text ++ body, s.start, last, some s.line⟩
      return .ok (← { m with tokens := m.tokens ++ [token] }.scanLine line stop)
    | none =>
      let text := s.text ++ line.text
      if !s.delimiter.triple && !endsInContinuation line.text then
        let last ← line.position (byteCount line.text)
        let token : Token := ⟨.unrecognized, text, s.start, last, some s.line⟩
        return .ok { m with tokens := m.tokens ++ [token] }
      else return .ok { m with opened := some { s with text := text } }
  | none =>
    if m.depth = 0 ∧ !m.continued then
      match ← m.lexIndentation line with
      | .error e => return .error e
      | .ok (m, none) => return .ok m
      | .ok (m, some pos) => return .ok (← m.scanLine line pos)
    else return .ok (← { m with continued := false }.scanLine line 0)

def lexLines (m : Machine) (number : Nat) :
    List Text → Except Fault (Except LexicalError (Machine × Nat))
  | [] => .ok (.ok (m, number))
  | text :: later => do
    let number ← count m.checked (number + 1)
    match ← m.lexLine ⟨text, number⟩ with
    | .error e => return .error e
    | .ok next => next.lexLines number later

def supplyNewline (m : Machine) (number : Nat) (last : Text) : Except Fault (List Token) :=
  if needsNewline last then do
    let col := word last.length
    let stop ← count m.checked (col + 1)
    return [⟨.newline, [], ⟨number, col⟩, ⟨number, stop⟩, none⟩]
  else return []

def finish (m : Machine) (number : Nat) (last : Text) :
    Except Fault (Except LexicalError (List Token)) := do
  let below : Position := ⟨← count m.checked (number + 1), 0⟩
  match m.opened with
  | some s => return .error ⟨.unterminatedString, s.start, some s.line⟩
  | none =>
    if 0 < m.depth ∨ m.continued then return .error ⟨.unterminatedStatement, below, none⟩
    else
      let newline ← m.supplyNewline number last
      return .ok (m.tokens ++ newline ++
        (m.levels.tail.map fun _ => ⟨.dedent, [], below, below, none⟩) ++
        [⟨.endMarker, [], below, below, none⟩])

end Machine

/-- The tokens of a source, read by its bytes, with counters that are checked or not. -/
def lex (checked : Bool) (source : Text) : Except Fault (Except LexicalError (List Token)) := do
  let lines := Text.lines source
  match ← Machine.lexLines { checked := checked } 0 lines with
  | .error e => return .error e
  | .ok (m, number) =>
    if m.levels.isEmpty then .error .noBlock
    else m.finish number (lines.getLastD [])

end SourceTokens.ByteLexer
