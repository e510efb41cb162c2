import Mathlib.Data.List.TakeWhile
import SourceTokens.Segmentation

/-!
How lines are cut. A line that may begin a statement holds no code, or its code opens a block,
closes blocks, stays in the innermost block or fits none. Any line that can be cut is cut in one of
six ways, and a run is cut line by line, so what every line preserves holds behind a run.
-/

namespace SourceTokens

namespace Indentation

def BeginsCode (c : Char) : Prop := Text.isBlank c = false ∧ c ≠ '#' ∧ Text.isBreak c = false

inductive LineStart (levels : List Nat) (line : Text) : Start → Prop
  | blank (hline : line.all Text.isBlank) : LineStart levels line (.noCode [.gap line])
  | comment (blanks rest : Text) (hblanks : blanks.all Text.isBlank)
      (hline : line = blanks ++ '#' :: rest) :
      LineStart levels line (.noCode [.gap blanks, .lexeme .comment (Text.dropBreaks ('#' :: rest)),
        .lexeme .lineBreak (('#' :: rest).drop (Text.dropBreaks ('#' :: rest)).length)])
  | lineBreak (blanks : Text) (c : Char) (rest : Text) (hblanks : blanks.all Text.isBlank)
      (hline : line = blanks ++ c :: rest) (hc : Text.isBreak c) :
      LineStart levels line (.noCode [.gap blanks, .lexeme .lineBreak (c :: rest)])
  | opens (blanks : Text) (c : Char) (rest : Text) (hblanks : blanks.all Text.isBlank)
      (hline : line = blanks ++ c :: rest) (hc : BeginsCode c)
      (hwidth : innermost levels < width blanks) :
      LineStart levels line
        (.code [.lexeme .indent blanks] (width blanks :: levels) (c :: rest))
  | closes (blanks : Text) (c : Char) (rest : Text) (hblanks : blanks.all Text.isBlank)
      (hline : line = blanks ++ c :: rest) (hc : BeginsCode c)
      (hwidth : width blanks < innermost levels) (hopen : width blanks ∈ levels) :
      LineStart levels line
        (.code
          (.gap blanks :: (levels.takeWhile (width blanks < ·)).map fun _ => .lexeme .dedent [])
          (levels.dropWhile (width blanks < ·)) (c :: rest))
  | stays (blanks : Text) (c : Char) (rest : Text) (hblanks : blanks.all Text.isBlank)
      (hline : line = blanks ++ c :: rest) (hc : BeginsCode c)
      (hwidth : width blanks = innermost levels) :
      LineStart levels line (.code [.gap blanks] levels (c :: rest))
  | misfit (blanks : Text) (c : Char) (rest : Text) (hblanks : blanks.all Text.isBlank)
      (hline : line = blanks ++ c :: rest) (hc : BeginsCode c)
      (hwidth : width blanks < innermost levels) (hclosed : width blanks ∉ levels) :
      LineStart levels line (.misfit blanks.length)

theorem lineStart_startOfCode (levels : List Nat) (blanks : Text) (c : Char) (rest : Text)
    (hblanks : blanks.all Text.isBlank) (hc : BeginsCode c) :
    LineStart levels (blanks ++ c :: rest) (startOfCode levels blanks (c :: rest)) := by
  unfold startOfCode
  simp only
  split
  · rename_i hdeeper
    exact .opens blanks c rest hblanks rfl hc hdeeper
  · rename_i hdeeper
    split
    · rename_i hshallower
      split
      · rename_i hopen
        exact .closes blanks c rest hblanks rfl hc hshallower (List.contains_iff_mem.1 hopen)
      · rename_i hclosed
        exact .misfit blanks c rest hblanks rfl hc hshallower
          fun hmem => hclosed (List.contains_iff_mem.2 hmem)
    · rename_i hshallower
      exact .stays blanks c rest hblanks rfl hc (by omega)

theorem lineStart_start (levels : List Nat) (line : Text) :
    LineStart levels line (start levels line) := by
  have hblanks : (line.takeWhile Text.isBlank).all Text.isBlank := List.all_takeWhile
  have hline := List.takeWhile_append_dropWhile (p := Text.isBlank) (l := line)
  unfold start
  simp only
  split
  · rename_i hnone
    rw [hnone, List.append_nil] at hline
    rw [hline] at hblanks ⊢
    exact .blank hblanks
  · rename_i c rest hrest
    have hc : Text.isBlank c = false := by
      have hhead := List.head?_dropWhile_not Text.isBlank line
      rwa [hrest] at hhead
    rw [hrest] at hline
    split
    · rename_i hcomment
      subst hcomment
      exact .comment _ rest hblanks hline.symm
    · rename_i hcomment
      split
      · rename_i hbreak
        exact .lineBreak _ c rest hblanks hline.symm hbreak
      · rename_i hbreak
        rw [Bool.not_eq_true] at hbreak
        have hcode := lineStart_startOfCode levels _ c rest hblanks ⟨hc, hcomment, hbreak⟩
        rwa [hline] at hcode

theorem split_blanks {blanks : Text} {c : Char} (rest : Text) (hblanks : blanks.all Text.isBlank)
    (hc : Text.isBlank c = false) :
    (blanks ++ c :: rest).takeWhile Text.isBlank = blanks ∧
      (blanks ++ c :: rest).dropWhile Text.isBlank = c :: rest := by
  rw [List.all_eq_true] at hblanks
  rw [List.takeWhile_append_of_pos hblanks, List.dropWhile_append_of_pos hblanks]
  simp [hc]

theorem start_of_code (levels : List Nat) {blanks : Text} {c : Char} (rest : Text)
    (hblanks : blanks.all Text.isBlank) (hc : BeginsCode c) :
    start levels (blanks ++ c :: rest) = startOfCode levels blanks (c :: rest) := by
  obtain ⟨hblank, hcomment, hbreak⟩ := hc
  obtain ⟨htake, hdrop⟩ := split_blanks rest hblanks hblank
  rw [start, htake, hdrop]
  simp only [if_neg hcomment, hbreak, Bool.false_eq_true, if_false]

/-- A line has one start only. -/
theorem start_eq_of_lineStart {levels : List Nat} {line : Text} {st : Start}
    (h : LineStart levels line st) : start levels line = st := by
  cases h with
  | blank hline =>
    rw [List.all_eq_true] at hline
    rw [start, List.takeWhile_eq_self_iff.2 hline, List.dropWhile_eq_nil_iff.2 hline]
  | comment blanks rest hblanks hline =>
    obtain ⟨htake, hdrop⟩ := split_blanks (c := '#') rest hblanks rfl
    rw [hline, start, htake, hdrop]
    rfl
  | lineBreak blanks c rest hblanks hline hc =>
    have hkind : Text.isBlank c = false ∧ c ≠ '#' := by
      simp only [Text.isBreak, Bool.or_eq_true, beq_iff_eq] at hc
      rcases hc with rfl | rfl <;> decide
    obtain ⟨htake, hdrop⟩ := split_blanks rest hblanks hkind.1
    rw [hline, start, htake, hdrop]
    simp only [if_neg hkind.2, hc, if_true]
  | opens blanks c rest hblanks hline hc hwidth =>
    rw [hline, start_of_code levels rest hblanks hc, startOfCode, if_pos hwidth]
  | closes blanks c rest hblanks hline hc hwidth hopen =>
    rw [hline, start_of_code levels rest hblanks hc, startOfCode, if_neg (Nat.lt_asymm hwidth),
      if_pos hwidth, if_pos (List.contains_iff_mem.2 hopen)]
  | stays blanks c rest hblanks hline hc hwidth =>
    rw [hline, start_of_code levels rest hblanks hc, startOfCode, hwidth,
      if_neg (Nat.lt_irrefl _), if_neg (Nat.lt_irrefl _)]
  | misfit blanks c rest hblanks hline hc hwidth hclosed =>
    rw [hline, start_of_code levels rest hblanks hc, startOfCode, if_neg (Nat.lt_asymm hwidth),
      if_pos hwidth, if_neg fun hopen => hclosed (List.contains_iff_mem.1 hopen)]

end Indentation

namespace Segmentation

open Indentation LineScan StringLiteral

/-- The ways in which a line is cut: the pieces it leaves and the state after it. -/
inductive LineCut (s : State) (line : Text) : List Piece → State → Prop
  /-- The line closes the string that was open. -/
  | closes (d : Delimiter) (text body rest : Text) (hcarry : s.carry = .string d text)
      (hsplit : splitAtCloser d line = some (body, rest)) :
      LineCut s line (.lexeme .string (text ++ body) :: (scan s.depth rest).pieces)
        (.ofScan s.levels (scan s.depth rest))
  /-- The open string is given up with the line. -/
  | givesUp (d : Delimiter) (text : Text) (hcarry : s.carry = .string d text)
      (hsplit : splitAtCloser d line = none) (hsingle : d.triple = false)
      (hend : endsInContinuation line = false) :
      LineCut s line [.lexeme .unrecognized (text ++ line)] { s with carry := .nothing }
  /-- The open string goes on. -/
  | staysOpen (d : Delimiter) (text : Text) (hcarry : s.carry = .string d text)
      (hsplit : splitAtCloser d line = none) (hgoes : d.triple ∨ endsInContinuation line) :
      LineCut s line [] { s with carry := .string d (text ++ line) }
  /-- The line may start a statement and holds no code. -/
  | noCode (pieces : List Piece) (hcarry : s.carry = .nothing) (hdepth : s.depth = 0)
      (hstart : LineStart s.levels line (.noCode pieces)) : LineCut s line pieces s
  /-- The line starts a statement. -/
  | code (before : List Piece) (levels : List Nat) (rest : Text) (hcarry : s.carry = .nothing)
      (hdepth : s.depth = 0) (hstart : LineStart s.levels line (.code before levels rest)) :
      LineCut s line (before ++ (scan s.depth rest).pieces) (.ofScan levels (scan s.depth rest))
  /-- The line goes on with a statement. -/
  | within (hcarry : s.carry = .continuation ∨ s.carry = .nothing ∧ s.depth ≠ 0) :
      LineCut s line (scan s.depth line).pieces (.ofScan s.levels (scan s.depth line))

theorem lineCut_of_cutLine {s next : State} {line : Text} {pieces : List Piece}
    (h : cutLine s line = .ok (pieces, next)) : LineCut s line pieces next := by
  unfold cutLine at h
  split at h
  · rename_i d text hcarry
    rw [Except.ok.injEq, cutInString] at h
    split at h
    · rename_i body rest hsplit
      cases h
      exact .closes d text body rest hcarry hsplit
    · rename_i hsplit
      split at h
      · rename_i hgives
        cases h
        simp only [Bool.and_eq_true, Bool.not_eq_true'] at hgives
        exact .givesUp d text hcarry hsplit hgives.1 hgives.2
      · rename_i hgoes
        cases h
        refine .staysOpen d text hcarry hsplit ?_
        simpa [or_iff_not_imp_left] using hgoes
  · rename_i hcarry
    cases h
    exact .within (Or.inl hcarry)
  · rename_i hcarry
    split at h
    · rename_i hdepth
      have hstart := lineStart_start s.levels line
      split at h
      · rename_i heq
        cases h
        rw [heq] at hstart
        exact .noCode _ hcarry hdepth hstart
      · rename_i heq
        cases h
        rw [heq] at hstart
        exact .code _ _ _ hcarry hdepth hstart
      · cases h
    · rename_i hdepth
      cases h
      exact .within (Or.inr ⟨hcarry, hdepth⟩)

/-- The only lines that cannot be cut may begin a statement and fit no open block. -/
theorem cutLine_eq_error_iff {s : State} {line : Text} {column : Nat} :
    cutLine s line = .error column ↔
      s.carry = .nothing ∧ s.depth = 0 ∧ LineStart s.levels line (.misfit column) := by
  constructor
  · intro h
    unfold cutLine at h
    split at h
    · cases h
    · cases h
    · rename_i hcarry
      split at h
      · rename_i hdepth
        have hstart := lineStart_start s.levels line
        split at h
        · cases h
        · cases h
        · rename_i heq
          cases h
          rw [heq] at hstart
          exact ⟨hcarry, hdepth, hstart⟩
      · cases h
  · rintro ⟨hcarry, hdepth, hstart⟩
    simp only [cutLine, hcarry, hdepth, if_true, start_eq_of_lineStart hstart]

/-- A run is cut line by line. -/
theorem exists_cutLine_of_cutLines {s last : State} {line : Text} {later : List Text}
    {pieces : List Piece} (h : cutLines s (line :: later) = .ok (pieces, last)) :
    ∃ first next more, pieces = first ++ more ∧ cutLine s line = .ok (first, next) ∧
      cutLines next later = .ok (more, last) := by
  unfold cutLines at h
  split at h
  · cases h
  · rename_i first next hfirst
    split at h
    · cases h
    · rename_i more last' hmore
      cases h
      exact ⟨first, next, more, rfl, hfirst, hmore⟩

theorem exists_lineCut_of_cutLines {s last : State} {line : Text} {later : List Text}
    {pieces : List Piece} (h : cutLines s (line :: later) = .ok (pieces, last)) :
    ∃ first next more, pieces = first ++ more ∧ LineCut s line first next ∧
      cutLines next later = .ok (more, last) := by
  obtain ⟨first, next, more, hpieces, hfirst, hmore⟩ := exists_cutLine_of_cutLines h
  exact ⟨first, next, more, hpieces, lineCut_of_cutLine hfirst, hmore⟩

theorem cutLines_append_of_error {s : State} {a : List Text} {p : Position}
    (h : cutLines s a = .error p) (b : List Text) : cutLines s (a ++ b) = .error p := by
  induction a generalizing s p with
  | nil => cases h
  | cons line later ih =>
    rw [List.cons_append]
    unfold cutLines at h ⊢
    cases hline : cutLine s line with
    | error column =>
      rw [hline] at h
      exact h
    | ok r =>
      rw [hline] at h
      cases hlater : cutLines r.2 later with
      | error q =>
        simp only [hlater] at h
        simp only [ih hlater]
        exact h
      | ok t =>
        simp only [hlater] at h
        cases h

/-- A run is cut only if its first lines are, and its last lines are from the state behind them. -/
theorem exists_cutLines_of_append {s last : State} {a b : List Text} {pieces : List Piece}
    (h : cutLines s (a ++ b) = .ok (pieces, last)) :
    ∃ front middle back, pieces = front ++ back ∧ cutLines s a = .ok (front, middle) ∧
      cutLines middle b = .ok (back, last) := by
  cases ha : cutLines s a with
  | error p =>
    rw [cutLines_append_of_error ha] at h
    cases h
  | ok r =>
    obtain ⟨front, middle⟩ := r
    rw [cutLines_append ha] at h
    cases hb : cutLines middle b with
    | error p =>
      simp only [hb] at h
      cases h
    | ok t =>
      obtain ⟨back, last'⟩ := t
      simp only [hb] at h
      cases h
      exact ⟨front, middle, back, rfl, rfl, hb⟩

/-- What every line preserves holds behind a run of lines. -/
theorem invariant_of_cutLines {I : State → Prop}
    (hline : ∀ s line pieces next, LineCut s line pieces next → I s → I next)
    {s last : State} {lines : List Text} {pieces : List Piece}
    (h : cutLines s lines = .ok (pieces, last)) (hs : I s) : I last := by
  induction lines generalizing s pieces with
  | nil =>
    cases h
    exact hs
  | cons line later ih =>
    obtain ⟨first, next, more, -, hfirst, hmore⟩ := exists_lineCut_of_cutLines h
    exact ih hmore (hline s line first next hfirst hs)

end Segmentation

end SourceTokens
