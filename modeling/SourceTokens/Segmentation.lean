import SourceTokens.Indentation
import SourceTokens.LineScan

/-!
The cutting of a run of lines. Between two lines there are only the open blocks, the open
brackets and what the line before left unfinished, so a run can be cut from any such state and
two runs that meet in one state go on alike.
-/

namespace SourceTokens.Segmentation

open LineScan StringLiteral

structure State where
  /-- The widths of the open blocks, innermost first. -/
  levels : List Nat := [0]
  depth : Nat := 0
  carry : Carry := .nothing
  deriving DecidableEq, Repr

def State.ofScan (levels : List Nat) (r : Result) : State := ⟨levels, r.depth, r.carry⟩

def scanRest (levels : List Nat) (depth : Nat) (before : List Piece) (rest : Text) :
    List Piece × State :=
  let r := scan depth rest
  (before ++ r.pieces, .ofScan levels r)

/-- A line that starts inside an open string. A string in single quotes that neither closes nor
continues is given up, and what it covers is unrecognized text. -/
def cutInString (s : State) (d : Delimiter) (text line : Text) : List Piece × State :=
  match splitAtCloser d line with
  | some (body, rest) => scanRest s.levels s.depth [.lexeme .string (text ++ body)] rest
  | none =>
    if !d.triple && !endsInContinuation line then
      ([.lexeme .unrecognized (text ++ line)], { s with carry := .nothing })
    else ([], { s with carry := .string d (text ++ line) })

/-- The pieces of one line and the state after it, or the column of its first token when its
indentation fits no open block. -/
def cutLine (s : State) (line : Text) : Except Nat (List Piece × State) :=
  match s.carry with
  | .string d text => .ok (cutInString s d text line)
  | .continuation => .ok (scanRest s.levels s.depth [] line)
  | .nothing =>
    if s.depth = 0 then
      match Indentation.start s.levels line with
      | .noCode pieces => .ok (pieces, s)
      | .code pieces levels rest => .ok (scanRest levels s.depth pieces rest)
      | .misfit column => .error column
    else .ok (scanRest s.levels s.depth [] line)

/-- The pieces of a run of lines and the state after them, or the place of the first line that
does not fit, counted from the first line of the run. -/
def cutLines (s : State) : List Text → Except Position (List Piece × State)
  | [] => .ok ([], s)
  | line :: later =>
    match cutLine s line with
    | .error column => .error ⟨1, column⟩
    | .ok (pieces, next) =>
      match cutLines next later with
      | .error p => .error (p.down 1)
      | .ok (more, last) => .ok (pieces ++ more, last)

/-- A run of lines after another one is cut from the state that the first run leaves. -/
theorem cutLines_append {s middle : State} {a : List Text} {pieces : List Piece}
    (h : cutLines s a = .ok (pieces, middle)) (b : List Text) :
    cutLines s (a ++ b) =
      match cutLines middle b with
      | .error p => .error (p.down a.length)
      | .ok (more, last) => .ok (pieces ++ more, last) := by
  induction a generalizing s pieces with
  | nil =>
    cases h
    simp only [List.nil_append, List.length_nil, Position.down, Nat.add_zero]
    split <;> next heq => rw [heq]
  | cons line later ih =>
    simp only [List.cons_append, cutLines] at h ⊢
    split at h
    · cases h
    · split at h
      · cases h
      · next before next hline _ after last hmore =>
        cases h
        simp only [ih hmore]
        cases cutLines middle b with
        | error p => simp only [Position.down, List.length_cons, Nat.add_assoc]
        | ok r => simp only [List.append_assoc]

theorem scanRest_cover (levels : List Nat) (depth : Nat) (before : List Piece) (rest : Text) :
    Piece.cover (scanRest levels depth before rest).1 ++
      (scanRest levels depth before rest).2.carry.text = Piece.cover before ++ rest := by
  simp only [scanRest, State.ofScan, Piece.cover_append, List.append_assoc, scan_cover]

theorem cutInString_cover (s : State) (d : Delimiter) (text line : Text) :
    Piece.cover (cutInString s d text line).1 ++ (cutInString s d text line).2.carry.text =
      text ++ line := by
  unfold cutInString
  split
  · next body rest h =>
    rw [scanRest_cover, ← splitAtCloser_append h]
    simp [Piece.cover, Piece.text]
  · split <;> simp [Piece.cover, Piece.text, Carry.text]

theorem cutLine_cover {s next : State} {line : Text} {pieces : List Piece}
    (h : cutLine s line = .ok (pieces, next)) :
    Piece.cover pieces ++ next.carry.text = s.carry.text ++ line := by
  unfold cutLine at h
  split at h
  · next d text hc =>
    have hcover := cutInString_cover s d text line
    simp_all [Carry.text]
  · next hc =>
    have hcover := scanRest_cover s.levels s.depth [] line
    simp_all [Carry.text, Piece.cover]
  · next hc =>
    split at h
    · have hstart := Indentation.start_covers s.levels line
      split at h
      · next hp => simp_all [Indentation.Start.Covers, Carry.text]
      · next pieces levels rest hp =>
        have hcover := scanRest_cover levels s.depth pieces rest
        simp_all [Indentation.Start.Covers, Carry.text]
      · cases h
    · have hcover := scanRest_cover s.levels s.depth [] line
      simp_all [Carry.text, Piece.cover]

theorem cutLines_cover {s last : State} {lines : List Text} {pieces : List Piece}
    (h : cutLines s lines = .ok (pieces, last)) :
    Piece.cover pieces ++ last.carry.text = s.carry.text ++ lines.flatten := by
  induction lines generalizing s pieces with
  | nil => cases h; simp [Piece.cover]
  | cons line later ih =>
    unfold cutLines at h
    split at h
    · cases h
    · next before next hline =>
      split at h
      · cases h
      · next more last' hmore =>
        cases h
        have hfirst := cutLine_cover hline
        have hrest := ih hmore
        simp only [Piece.cover_append, List.append_assoc, List.flatten_cons]
        rw [hrest, ← List.append_assoc, hfirst, List.append_assoc]

end SourceTokens.Segmentation
