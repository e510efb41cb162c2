import SourceTokens.Lexeme.Number
import SourceTokens.Lexeme.Operator
import SourceTokens.Lexeme.StringLiteral
import SourceTokens.Lexeme.Word
import SourceTokens.Piece

/-!
The cutting of one physical line, from a place where no indentation counts any more. Only the
number of open brackets is needed from the lines before: it decides whether a line break ends a
statement. What a line hands on to the next is that number, and a statement or a string that the
line leaves unfinished.
-/

namespace SourceTokens.LineScan

inductive Carry
  | nothing
  /-- The line ended in a backslash, so the statement goes on. -/
  | continuation
  /-- A string is open; the text is what it covers so far. -/
  | string (d : StringLiteral.Delimiter) (text : Text)
  deriving DecidableEq, Repr

def Carry.text : Carry → Text
  | .string _ text => text
  | _ => []

structure Result where
  pieces : List Piece
  depth : Nat
  carry : Carry
  deriving DecidableEq, Repr

def Result.cons (piece : Piece) (r : Result) : Result := { r with pieces := piece :: r.pieces }

/-- A line break inside brackets ends no statement. -/
def lineBreakKind (depth : Nat) : TokenKind := if depth = 0 then .newline else .lineBreak

inductive Front
  | piece (piece : Piece) (rest : Text)
  | continuation
  | unclosed (d : StringLiteral.Delimiter)

def Front.ofRun (kind : TokenKind) (member : Char → Bool) (text : Text) : Front :=
  .piece (.lexeme kind (text.takeWhile member)) (text.dropWhile member)

def frontOfSymbol (c : Char) (rest : Text) : Front :=
  match Operator.longest? (c :: rest) with
  | some operator => .piece (.lexeme .operator operator) ((c :: rest).drop operator.length)
  | none => .piece (.lexeme .unrecognized [c]) rest

/-- A number character that starts no word takes the rest of the word with it. -/
def frontOfWord (c : Char) (rest : Text) : Front :=
  if Word.isStart c then .ofRun .name Word.isContinue (c :: rest)
  else if Word.isContinue c then .ofRun .unrecognized Word.isContinue (c :: rest)
  else frontOfSymbol c rest

def frontOfLiteral (c : Char) (rest : Text) : Front :=
  let text := c :: rest
  match Number.length text with
  | 0 =>
    match StringLiteral.read text with
    | .closed literal after => .piece (.lexeme .string literal) after
    | .unclosed d => .unclosed d
    | .none => frontOfWord c rest
  | n + 1 => .piece (.lexeme .number (text.take (n + 1))) (text.drop (n + 1))

def front (depth : Nat) (c : Char) (rest : Text) : Front :=
  if Text.isBlank c then
    .piece (.gap ((c :: rest).takeWhile Text.isBlank)) ((c :: rest).dropWhile Text.isBlank)
  else if c = '\\' then
    if StringLiteral.isContinuation (c :: rest) then .continuation
    else .piece (.lexeme .unrecognized [c]) rest
  else if c = '\n' then .piece (.lexeme (lineBreakKind depth) [c]) rest
  else if c = '\r' ∧ rest.head? = some '\n' then
    .piece (.lexeme (lineBreakKind depth) ['\r', '\n']) rest.tail
  else if c = '#' then .ofRun .comment (fun c => !Text.isBreak c) (c :: rest)
  else frontOfLiteral c rest

def Front.Covers (text : Text) : Front → Prop
  | .piece p after => p.text ++ after = text ∧ p.text ≠ []
  | _ => True

theorem ofRun_covers {kind : TokenKind} {member : Char → Bool} {c : Char} {rest : Text}
    (h : member c) : (Front.ofRun kind member (c :: rest)).Covers (c :: rest) := by
  simp [Front.ofRun, Front.Covers, Piece.text, h, List.takeWhile_append_dropWhile]

theorem frontOfSymbol_covers (c : Char) (rest : Text) :
    (frontOfSymbol c rest).Covers (c :: rest) := by
  unfold frontOfSymbol
  split
  · next operator h => exact ⟨Operator.longest?_append h, Operator.longest?_ne_nil h⟩
  · exact ⟨rfl, by simp [Piece.text]⟩

theorem frontOfWord_covers (c : Char) (rest : Text) :
    (frontOfWord c rest).Covers (c :: rest) := by
  unfold frontOfWord
  split
  · next h => exact ofRun_covers (Word.isContinue_of_isStart h)
  · split
    · next h => exact ofRun_covers h
    · exact frontOfSymbol_covers c rest

theorem frontOfLiteral_covers (c : Char) (rest : Text) :
    (frontOfLiteral c rest).Covers (c :: rest) := by
  unfold frontOfLiteral
  simp only
  split
  · split
    · next h => exact ⟨StringLiteral.read_append h, StringLiteral.read_ne_nil h⟩
    · trivial
    · exact frontOfWord_covers c rest
  · exact ⟨List.take_append_drop _ _, by simp [Piece.text]⟩

theorem front_covers (depth : Nat) (c : Char) (rest : Text) :
    (front depth c rest).Covers (c :: rest) := by
  unfold front
  split
  · next h => exact ⟨List.takeWhile_append_dropWhile, by simp [Piece.text, h]⟩
  · split
    · split
      · trivial
      · exact ⟨rfl, by simp [Piece.text]⟩
    · split
      · exact ⟨rfl, by simp [Piece.text]⟩
      · split
        · next h =>
          obtain ⟨rfl, h⟩ := h
          cases rest with
          | nil => simp at h
          | cons d rest => simp_all [Front.Covers, Piece.text]
        · split
          · next h => exact ofRun_covers (by rw [h]; rfl)
          · exact frontOfLiteral_covers c rest

def depthAfter (depth : Nat) : Piece → Nat
  | .lexeme .operator text => Operator.depthAfter text depth
  | _ => depth

def scanUpTo : Nat → Nat → Text → Result
  | 0, depth, _ => ⟨[], depth, .nothing⟩
  | _ + 1, depth, [] => ⟨[], depth, .nothing⟩
  | limit + 1, depth, c :: rest =>
    match front depth c rest with
    | .piece piece after => (scanUpTo limit (depthAfter depth piece) after).cons piece
    | .continuation => ⟨[.gap (c :: rest)], depth, .continuation⟩
    | .unclosed d => ⟨[], depth, .string d (c :: rest)⟩

/-- The pieces of the rest of a line. No piece is empty, so there are no more of them than
characters. -/
def scan (depth : Nat) (text : Text) : Result := scanUpTo text.length depth text

theorem scanUpTo_cover (limit depth : Nat) (text : Text) (h : text.length ≤ limit) :
    Piece.cover (scanUpTo limit depth text).pieces ++ (scanUpTo limit depth text).carry.text =
      text := by
  induction limit generalizing depth text with
  | zero =>
    have : text = [] := List.length_eq_zero_iff.1 (by omega)
    subst this
    rfl
  | succ limit ih =>
    cases text with
    | nil => rfl
    | cons c rest =>
      have hfront := front_covers depth c rest
      unfold scanUpTo
      split
      · next piece after hp =>
        rw [hp] at hfront
        obtain ⟨happend, hne⟩ := hfront
        have hlen := congrArg List.length happend
        have hpos := List.length_pos_iff.2 hne
        simp only [List.length_append, List.length_cons] at hlen h
        simp only [Result.cons, Piece.cover_cons, List.append_assoc]
        rw [ih _ _ (by omega), happend]
      · simp [Piece.cover, Piece.text, Carry.text]
      · simp [Piece.cover, Carry.text]

theorem scan_cover (depth : Nat) (text : Text) :
    Piece.cover (scan depth text).pieces ++ (scan depth text).carry.text = text :=
  scanUpTo_cover _ _ _ (Nat.le_refl _)

end SourceTokens.LineScan
