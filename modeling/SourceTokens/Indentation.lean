import SourceTokens.Piece

/-!
Indentation at the start of a statement. The widths of the open blocks form a stack with the
innermost block on top and the width zero of the source itself at the bottom. A deeper line opens
a block and a shallower one closes blocks down to a width that is open. Lines without code do not
take part, whatever their width.
-/

namespace SourceTokens.Indentation

/-- The column after a blank: a tab goes on to the next multiple of eight, and a form feed
starts over. -/
def columnAfter (column : Nat) (c : Char) : Nat :=
  if c = '\t' then (column / 8 + 1) * 8
  else if c = '\x0c' then 0
  else column + 1

def width (blanks : Text) : Nat := blanks.foldl columnAfter 0

def innermost (levels : List Nat) : Nat := levels.headD 0

inductive Start
  /-- The line holds no code and is finished. -/
  | noCode (pieces : List Piece)
  /-- The pieces before the first token of the line, and the blocks open from then on. -/
  | code (pieces : List Piece) (levels : List Nat) (rest : Text)
  /-- The line is as wide as no open block; the column is that of its first token. -/
  | misfit (column : Nat)
  deriving DecidableEq, Repr

def startOfCode (levels : List Nat) (blanks rest : Text) : Start :=
  let column := width blanks
  if innermost levels < column then
    .code [.lexeme .indent blanks] (column :: levels) rest
  else if column < innermost levels then
    if levels.contains column then
      .code (.gap blanks :: (levels.takeWhile (column < ·)).map fun _ => .lexeme .dedent [])
        (levels.dropWhile (column < ·)) rest
    else .misfit blanks.length
  else .code [.gap blanks] levels rest

def start (levels : List Nat) (line : Text) : Start :=
  let blanks := line.takeWhile Text.isBlank
  match line.dropWhile Text.isBlank with
  | [] => .noCode [.gap blanks]
  | c :: rest =>
    if c = '#' then
      let comment := Text.dropBreaks (c :: rest)
      .noCode [.gap blanks, .lexeme .comment comment,
        .lexeme .lineBreak ((c :: rest).drop comment.length)]
    else if Text.isBreak c then .noCode [.gap blanks, .lexeme .lineBreak (c :: rest)]
    else startOfCode levels blanks (c :: rest)

theorem cover_dedents (levels : List Nat) :
    Piece.cover (levels.map fun _ => .lexeme .dedent []) = [] := by
  induction levels with
  | nil => rfl
  | cons _ _ ih => exact ih

def Start.Covers (line : Text) : Start → Prop
  | .noCode pieces => Piece.cover pieces = line
  | .code pieces _ rest => Piece.cover pieces ++ rest = line
  | .misfit _ => True

theorem startOfCode_covers (levels : List Nat) (blanks rest : Text) :
    (startOfCode levels blanks rest).Covers (blanks ++ rest) := by
  unfold startOfCode
  simp only
  split
  · simp [Start.Covers, Piece.cover, Piece.text]
  · split
    · split
      · simp only [Start.Covers, Piece.cover_cons, cover_dedents, Piece.text, List.append_nil]
      · trivial
    · simp [Start.Covers, Piece.cover, Piece.text]

theorem start_covers (levels : List Nat) (line : Text) : (start levels line).Covers line := by
  have hline : line.takeWhile Text.isBlank ++ line.dropWhile Text.isBlank = line :=
    List.takeWhile_append_dropWhile
  unfold start
  simp only
  split
  · next h => simp_all [Start.Covers, Piece.cover, Piece.text]
  · next c rest h =>
    rw [h] at hline
    split
    · simp [Start.Covers, Piece.cover, Piece.text, Text.dropBreaks_append_drop, hline]
    · split
      · simp [Start.Covers, Piece.cover, Piece.text, hline]
      · have hcode := startOfCode_covers levels (line.takeWhile Text.isBlank) (c :: rest)
        rwa [hline] at hcode

end SourceTokens.Indentation
