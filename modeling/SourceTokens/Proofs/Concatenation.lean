import SourceTokens.Proofs.Coverage

/-!
Sources after one another. Behind a source that is accepted, ends in a line feed and leaves no block
open, the cutting is back in the state it starts in. The source after it is then cut as if it stood
alone, and only the numbers of its lines grow.
-/

namespace SourceTokens

open Segmentation

namespace Position

theorem step_down (p : Position) (n : Nat) (c : Char) : (p.down n).step c = (p.step c).down n := by
  unfold step
  split
  · simp only [down, mk.injEq, and_true]
    omega
  · rfl

theorem past_down (p : Position) (n : Nat) (text : Text) :
    (p.down n).past text = (p.past text).down n := by
  induction text generalizing p with
  | nil => rfl
  | cons c rest ih => rw [past_cons, past_cons, step_down, ih]

theorem stop_down (p : Position) (n : Nat) (text : Text) :
    (p.down n).stop text = (p.stop text).down n := by
  unfold stop
  split
  · rfl
  · rw [past_down]
    rfl

theorem line_le_past (p : Position) (text : Text) : p.line ≤ (p.past text).line := by
  have hle := le_past p text
  rw [le_iff] at hle
  omega

end Position

namespace LexicalError

def down (e : LexicalError) (n : Nat) : LexicalError := { e with position := e.position.down n }

end LexicalError

/-- Tokens of a source, and the outcome of another one `n` lines below them: its tokens follow
them, and its error stays an error. -/
def followedBy (tokens : List Token) (n : Nat) :
    Except LexicalError (List Token) → Except LexicalError (List Token)
  | .ok later => .ok (tokens ++ later.map (·.down n))
  | .error e => .error (e.down n)

section Below

variable (above below : List Text)

/-- A line keeps its text under its new number. -/
theorem getElem?_append_down {number : Nat} (h : 1 ≤ number) :
    (above ++ below)[number + above.length - 1]? = below[number - 1]? := by
  rw [List.getElem?_append_right (by omega)]
  congr 1
  omega

theorem place_down {p : Position} (h : 1 ≤ p.line) (pieces : List Piece) :
    Piece.place (above ++ below).toArray (p.down above.length) pieces =
      (Piece.place below.toArray p pieces).map (·.down above.length) := by
  induction pieces generalizing p with
  | nil => rfl
  | cons piece rest ih =>
    have hrest := ih (h.trans (Position.line_le_past p piece.text))
    cases piece with
    | gap text =>
      change Piece.place _ ((p.down _).past text) rest = _
      rw [Position.past_down]
      exact hrest
    | lexeme kind text =>
      have hline := getElem?_append_down above below h
      rw [Piece.place_lexeme, Piece.place_lexeme, List.map_cons, Position.past_down]
      congr 1
      simp only [Piece.token, Token.down, Position.stop_down, List.getElem?_toArray, Token.mk.injEq,
        true_and]
      exact hline

/-- Lines below do not matter for tokens that start above them. -/
theorem place_above {p : Position} {pieces : List Piece}
    (h : ∀ t ∈ Piece.place above.toArray p pieces, t.start.line - 1 < above.length) :
    Piece.place (above ++ below).toArray p pieces = Piece.place above.toArray p pieces := by
  induction pieces generalizing p with
  | nil => rfl
  | cons piece rest ih =>
    cases piece with
    | gap text => exact ih h
    | lexeme kind text =>
      rw [Piece.place_lexeme] at h
      obtain ⟨hfirst, hrest⟩ := List.forall_mem_cons.1 h
      rw [Piece.place_lexeme, Piece.place_lexeme, ih hrest]
      congr 1
      simp only [Piece.token, List.getElem?_toArray, Token.mk.injEq, true_and]
      exact List.getElem?_append_left hfirst

theorem suppliedNewline_down (h : suppliedNewline above = []) :
    suppliedNewline (above ++ below) = (suppliedNewline below).map (·.down above.length) := by
  rcases List.eq_nil_or_concat below with rfl | ⟨front, line, rfl⟩
  · rw [List.append_nil, h]
    rfl
  · have hlast : (above ++ (front ++ [line])).getLastD [] = line := by simp
    have hlast' : (front ++ [line]).getLastD [] = line := by simp
    simp only [suppliedNewline, List.concat_eq_append, hlast, hlast']
    split
    · simp only [List.map_singleton, Token.down, Position.down, List.length_append]
      congr 3
      all_goals omega
    · rfl

theorem closing_down (n m : Nat) (levels : List Nat) :
    closing (n + m) levels = (closing m levels).map (·.down n) := by
  have hplace : (⟨n + m + 1, 0⟩ : Position) = (⟨m + 1, 0⟩ : Position).down n := by
    simp only [Position.down, Position.mk.injEq, and_true]
    omega
  simp only [closing, List.map_append, List.map_map, List.map_singleton, hplace]
  rfl

/-- Lines cut from the state in which a source starts end as if they stood alone. -/
theorem finish_down {pieces : List Piece} (more : List Piece) (s : State)
    (hpast : Position.origin.past (Piece.cover pieces) = Position.origin.down above.length)
    (hstart : ∀ t ∈ Piece.place above.toArray .origin pieces, t.start.line - 1 < above.length)
    (hnone : suppliedNewline above = []) :
    finish (above ++ below) (pieces ++ more) s =
      followedBy (Piece.place above.toArray .origin pieces) above.length (finish below more s) := by
  have hend : (⟨(above ++ below).length + 1, 0⟩ : Position) =
      (⟨below.length + 1, 0⟩ : Position).down above.length := by
    simp only [Position.down, List.length_append, Position.mk.injEq, and_true]
    omega
  unfold finish
  cases s.carry with
  | string d text =>
    have hopened : Position.origin.past (Piece.cover (pieces ++ more)) =
        (Position.origin.past (Piece.cover more)).down above.length := by
      rw [Piece.cover_append, Position.past_append, hpast, Position.past_down]
    have hline := getElem?_append_down above below
      (Position.line_le_past .origin (Piece.cover more))
    simp only [hopened, List.getElem?_toArray, followedBy, LexicalError.down, Except.error.injEq,
      LexicalError.mk.injEq, true_and]
    exact hline
  | continuation =>
    simp only [hend, followedBy, LexicalError.down]
  | nothing =>
    simp only [hend]
    split
    · have hplace : Piece.place (above ++ below).toArray .origin (pieces ++ more) =
          Piece.place above.toArray .origin pieces ++
            (Piece.place below.toArray .origin more).map (·.down above.length) := by
        rw [Piece.place_append, place_above above below hstart, hpast,
          place_down above below (Nat.le_refl 1)]
      rw [hplace, suppliedNewline_down above below hnone, List.length_append, closing_down]
      simp only [followedBy, List.map_append, List.append_assoc]
    · rfl

end Below

theorem one_le_line_of_cutLines {s : State} {lines : List Text} {p : Position}
    (h : cutLines s lines = .error p) : 1 ≤ p.line := by
  cases lines with
  | nil => cases h
  | cons line later =>
    unfold cutLines at h
    split at h
    · cases h
      exact Nat.le_refl 1
    · split at h
      · cases h
        exact Nat.le_add_left 1 _
      · cases h

namespace Accepted

variable {source : Text} {tokens : List Token} {pieces : List Piece} {levels : List Nat}

/-- A last line with its terminator needs no other end of the statement. -/
theorem suppliedNewline_of_feed (h : source = [] ∨ source.getLast? = some '\n') :
    suppliedNewline (Text.lines source) = [] := by
  rcases suppliedNewline_cases source with hnone | ⟨t, -, hends⟩
  · exact hnone
  · exfalso
    have hneeds := hends.needs
    simp only [needsNewline, Bool.and_eq_true, Text.getLast?_getLastD_lines] at hneeds
    rcases h with rfl | h
    · simp [Text.lines] at hneeds
    · simp [h, Text.isBreak] at hneeds

/-- Without a dedent in front of the end marker no block is open. -/
theorem levels_eq_root (h : Accepted source tokens pieces levels)
    (hclosed : ∀ t ∈ tokens.dropLast.getLast?, t.kind ≠ .dedent) : levels = [0] := by
  apply h.nested.eq_root
  by_contra hopen
  rcases List.eq_nil_or_concat levels.tail with hnil | ⟨front, level, hlevels⟩
  · exact hopen hnil
  · rw [h.tokens_eq, closing, hlevels] at hclosed
    simp at hclosed

end Accepted

/-- Behind a closed source another one is cut as if it stood alone. -/
theorem tokenize_append {a b : Text} {tokens : List Token} (ha : a = [] ∨ a.getLast? = some '\n')
    (h : tokenize a = .ok tokens) (hclosed : ∀ t ∈ tokens.dropLast.getLast?, t.kind ≠ .dedent) :
    tokens.getLast?.map Token.kind = some .endMarker ∧
      tokenize (a ++ b) = followedBy tokens.dropLast (Text.lines a).length (tokenize b) := by
  obtain ⟨pieces, levels, hacc⟩ := exists_accepted h
  obtain rfl := hacc.levels_eq_root hclosed
  have hnone := Accepted.suppliedNewline_of_feed ha
  have hpast : Position.origin.past (Piece.cover pieces) =
      Position.origin.down (Text.lines a).length := by
    rw [hacc.cover, Text.past_origin_of_feed ha, Nat.add_comm]
    rfl
  have htokens : tokens = Piece.place (Text.lines a).toArray .origin pieces ++
      closing (Text.lines a).length [0] := by
    have heq := hacc.tokens_eq
    rwa [hnone, List.append_nil] at heq
  have hfront : tokens.dropLast = Piece.place (Text.lines a).toArray .origin pieces := by
    rw [htokens]
    exact List.dropLast_concat
  refine ⟨by rw [htokens]; simp [closing], ?_⟩
  have hcut := cutLines_append hacc.cut (Text.lines b)
  simp only [tokenize, Text.lines_append ha]
  cases hmore : cutLines {} (Text.lines b) with
  | error p =>
    rw [hmore] at hcut
    have hline := getElem?_append_down (Text.lines a) (Text.lines b)
      (one_le_line_of_cutLines hmore)
    rw [hcut]
    simp only [followedBy, LexicalError.down, Except.error.injEq, LexicalError.mk.injEq, true_and]
    exact hline
  | ok r =>
    obtain ⟨more, s⟩ := r
    rw [hmore] at hcut
    rw [hcut, hfront]
    exact finish_down (Text.lines a) (Text.lines b) more s hpast
      (fun t ht => (hacc.token_of_lexeme ht).2.1.line_lt) hnone

/-- A source whose only block is closed by its last line, and one that opens a block at its end. -/
theorem tokenize_append_of_block :
    let a : Text := [' ', 'x', '\n', 'y', '\n']
    let b : Text := [' ', 'z']
    let front : List Token :=
      [⟨.indent, [' '], ⟨1, 0⟩, ⟨1, 1⟩, some [' ', 'x', '\n']⟩,
        ⟨.name, ['x'], ⟨1, 1⟩, ⟨1, 2⟩, some [' ', 'x', '\n']⟩,
        ⟨.newline, ['\n'], ⟨1, 2⟩, ⟨1, 3⟩, some [' ', 'x', '\n']⟩,
        ⟨.dedent, [], ⟨2, 0⟩, ⟨2, 0⟩, some ['y', '\n']⟩,
        ⟨.name, ['y'], ⟨2, 0⟩, ⟨2, 1⟩, some ['y', '\n']⟩,
        ⟨.newline, ['\n'], ⟨2, 1⟩, ⟨2, 2⟩, some ['y', '\n']⟩]
    let mark : Token := ⟨.endMarker, [], ⟨3, 0⟩, ⟨3, 0⟩, none⟩
    tokenize a = .ok (front ++ [mark]) ∧
      tokenize (a ++ b) = .ok (front ++
        [⟨.indent, [' '], ⟨3, 0⟩, ⟨3, 1⟩, some [' ', 'z']⟩,
          ⟨.name, ['z'], ⟨3, 1⟩, ⟨3, 2⟩, some [' ', 'z']⟩,
          ⟨.newline, [], ⟨3, 2⟩, ⟨3, 3⟩, none⟩,
          ⟨.dedent, [], ⟨4, 0⟩, ⟨4, 0⟩, none⟩, ⟨.endMarker, [], ⟨4, 0⟩, ⟨4, 0⟩, none⟩]) := by
  intro a b front mark
  have htokens : tokenize a = .ok (front ++ [mark]) := by rfl
  have hclosed : ∀ t ∈ (front ++ [mark]).dropLast.getLast?, t.kind ≠ .dedent := by decide
  refine ⟨htokens, ?_⟩
  rw [(tokenize_append (Or.inr rfl) htokens hclosed).2]
  rfl

end SourceTokens
