import SourceTokens.Proofs.Coverage
import SourceTokens.Proofs.Scans

/-!
An accepted source seen from one of its lines. What was cut above the line stands above it, what is
cut on it and below starts there or behind, and a string that is open at its start is closed or
given up by a lexeme that reaches into it.
-/

namespace SourceTokens

open Segmentation

namespace Text

/-- A line is the last one, or it ends in its only line feed. -/
theorem whole_of_lines {source line : Text} {above below : List Text}
    (h : lines source = above ++ line :: below) :
    (∀ whole ∈ above, ∃ body, whole = body ++ ['\n'] ∧ '\n' ∉ body) ∧
      ((∃ body, line = body ++ ['\n'] ∧ '\n' ∉ body) ∨ below = [] ∧ '\n' ∉ line) := by
  obtain ⟨full, tail, hlines, hfull, htail⟩ := exists_lines source
  rw [h] at hlines
  rcases List.append_eq_append_iff.1 hlines with ⟨middle, rfl, hbelow⟩ | ⟨middle, rfl, hbelow⟩
  · rw [List.forall_mem_append] at hfull
    refine ⟨hfull.1, ?_⟩
    cases middle with
    | nil =>
      rcases htail with rfl | ⟨last, rfl, -, hlast⟩
      · cases hbelow
      · obtain ⟨rfl, rfl⟩ := List.cons.inj hbelow
        exact Or.inr ⟨rfl, hlast⟩
    | cons first middle =>
      obtain ⟨rfl, -⟩ := List.cons.inj hbelow
      exact Or.inl (hfull.2 line (List.mem_cons_self ..))
  · rcases htail with rfl | ⟨last, rfl, -, hlast⟩
    · simp at hbelow
    · cases middle with
      | nil =>
        obtain ⟨rfl, rfl⟩ := List.cons.inj hbelow
        rw [List.append_nil]
        exact ⟨hfull, Or.inr ⟨rfl, hlast⟩⟩
      | cons first middle => simp at hbelow

/-- A line feed is the last character of its line. -/
theorem not_feed_of_mem_lines {source line : Text} (h : line ∈ lines source) :
    '\n' ∉ line.dropLast := by
  obtain ⟨above, below, hlines⟩ := List.append_of_mem h
  rcases (whole_of_lines hlines).2 with ⟨body, rfl, hbody⟩ | ⟨-, hopen⟩
  · rwa [List.dropLast_concat]
  · exact fun hfeed => hopen ((List.dropLast_sublist line).mem hfeed)

end Text

namespace Piece

/-- A place among the tokens of pieces is a place among the pieces. -/
theorem exists_split_of_place {table : Array Text} {p : Position} {pieces : List Piece}
    {before after : List Token} {t : Token} (h : place table p pieces = before ++ t :: after) :
    ∃ front kind text back, pieces = front ++ .lexeme kind text :: back ∧
      before = place table p front ∧ t = token table (p.past (cover front)) kind text := by
  induction pieces generalizing p before with
  | nil => simp [place] at h
  | cons piece rest ih =>
    cases piece with
    | gap blanks =>
      obtain ⟨front, kind, text, back, rfl, rfl, rfl⟩ := ih h
      refine ⟨.gap blanks :: front, kind, text, back, rfl, rfl, ?_⟩
      rw [cover_cons, Position.past_append]
      rfl
    | lexeme kind text =>
      rw [place_lexeme] at h
      cases before with
      | nil =>
        obtain ⟨rfl, -⟩ := List.cons.inj h
        exact ⟨[], kind, text, rest, rfl, rfl, rfl⟩
      | cons first before =>
        obtain ⟨rfl, hrest⟩ := List.cons.inj h
        obtain ⟨front, kind', text', back, rfl, rfl, rfl⟩ := ih hrest
        refine ⟨.lexeme kind text :: front, kind', text', back, rfl, rfl, ?_⟩
        rw [cover_cons, Position.past_append]
        rfl

/-- Tokens in front of the start of a line stop on lines above. -/
theorem stop_line_lt {table : Array Text} {front : List Piece} {number : Nat}
    (hanchored : Anchored front []) (hpast : Position.origin.past (cover front) = ⟨number, 0⟩)
    {t : Token} (ht : t ∈ place table .origin front) : t.stop.line < number := by
  have hline : ∀ p : Position, p < ⟨number, 0⟩ → p.line < number := by
    intro p hp
    simp only [Position.lt_iff] at hp
    omega
  obtain ⟨before, kind, text, after, rfl, rfl⟩ := exists_lexeme_of_mem_place ht
  have hcover : Position.origin.past (cover (before ++ .lexeme kind text :: after)) =
      ((Position.origin.past (cover before)).past text).past (cover after) := by
    rw [cover_append, cover_cons, Position.past_append, Position.past_append]
    rfl
  rw [hcover] at hpast
  rcases List.eq_nil_or_concat text with rfl | ⟨body, c, rfl⟩
  · rw [Position.past_nil] at hpast
    have hbehind : ∀ c rest, cover after = c :: rest →
        (Position.origin.past (cover before)).line < number := by
      intro c rest hafter
      rw [hafter, Position.past_cons] at hpast
      apply hline
      rw [← hpast]
      exact (Position.lt_step _ c).trans_le (Position.le_past _ rest)
    change (Position.origin.past (cover before)).line < number
    cases hafter : cover after with
    | cons c rest => exact hbehind c rest hafter
    | nil =>
      exfalso
      rcases hanchored before kind after rfl with hne | ⟨first, comment, c, rfl, hc⟩
      · rw [List.append_nil] at hne
        exact hne hafter
      · -- The comment in front of an empty lexeme does not end its line.
        have hlast : cover (first ++ [.lexeme .comment (comment ++ [c])]) =
            cover first ++ comment ++ [c] := by
          rw [cover_append, cover_singleton, List.append_assoc]
          rfl
        rw [hafter, Position.past_nil, hlast, Position.past_append,
          Position.past_eq_stop _ hc, Position.stop_singleton] at hpast
        simp at hpast
  · rw [List.concat_eq_append, Position.past_append] at hpast
    change ((Position.origin.past (cover before)).stop _).line < number
    rw [List.concat_eq_append, Position.stop_concat]
    refine hline ((Position.origin.past (cover before)).past body) ?_
    rw [← hpast]
    exact (Position.lt_step _ c).trans_le (Position.le_past _ (cover after))

end Piece

namespace Segmentation

open LineScan StringLiteral

theorem lineCut_of_singleton {s next : State} {line : Text} {pieces : List Piece}
    (h : cutLines s [line] = .ok (pieces, next)) : LineCut s line pieces next := by
  obtain ⟨first, middle, more, rfl, hfirst, hmore⟩ := exists_lineCut_of_cutLines h
  cases hmore
  rw [List.append_nil]
  exact hfirst

/-- Each piece of a run was cut on one of its lines, from the state behind the lines above. -/
theorem exists_lineCut_of_piece {s last : State} {lines : List Text} {before after : List Piece}
    {piece : Piece} (h : cutLines s lines = .ok (before ++ piece :: after, last)) :
    ∃ above line below front middle head tail next, lines = above ++ line :: below ∧
      cutLines s above = .ok (front, middle) ∧ LineCut middle line (head ++ piece :: tail) next ∧
      before = front ++ head := by
  induction lines generalizing s before with
  | nil => simp [cutLines] at h
  | cons line later ih =>
    rw [← List.singleton_append] at h
    obtain ⟨first, next, more, hpieces, hfirst, hmore⟩ := exists_cutLines_of_append h
    -- A piece that was not cut on the first line was cut on a later one.
    have hlater : ∀ before', before = first ++ before' → more = before' ++ piece :: after →
        ∃ above line' below front middle head tail next', line :: later = above ++ line' :: below ∧
          cutLines s above = .ok (front, middle) ∧
          LineCut middle line' (head ++ piece :: tail) next' ∧ before = front ++ head := by
      rintro before' rfl rfl
      obtain ⟨above, line', below, front, middle, head, tail, next', rfl, habove, hline, rfl⟩ :=
        ih hmore
      refine ⟨[line] ++ above, line', below, first ++ front, middle, head, tail, next', rfl, ?_,
        hline, (List.append_assoc ..).symm⟩
      rw [cutLines_append hfirst, habove]
    rcases List.append_eq_append_iff.1 hpieces with
      ⟨middle, rfl, hbehind⟩ | ⟨middle, hbefore, hbehind⟩
    · cases middle with
      | nil => exact hlater [] (by simp) hbehind.symm
      | cons other tail =>
        obtain ⟨rfl, -⟩ := List.cons.inj hbehind
        exact ⟨[], line, later, [], s, before, tail, next, rfl, rfl, lineCut_of_singleton hfirst,
          rfl⟩
    · exact hlater middle hbefore hbehind

/-- Behind the start of a string a run leaves it open or starts with a lexeme that the string is the
beginning of. -/
theorem cutLines_of_string {s last : State} {d : Delimiter} {text : Text} {lines : List Text}
    {pieces : List Piece} (hcarry : s.carry = .string d text) (hlines : ∀ line ∈ lines, line ≠ [])
    (h : cutLines s lines = .ok (pieces, last)) :
    (∃ opened, last.carry = .string d opened) ∨
      ∃ kind more rest, pieces = .lexeme kind (text ++ more) :: rest ∧ more ≠ [] ∧
        (kind = .string ∨ kind = .unrecognized) := by
  induction lines generalizing s text pieces with
  | nil =>
    cases h
    exact Or.inl ⟨text, hcarry⟩
  | cons line later ih =>
    obtain ⟨hline, hlater⟩ := List.forall_mem_cons.1 hlines
    obtain ⟨first, next, more, rfl, hfirst, hmore⟩ := exists_lineCut_of_cutLines h
    cases hfirst with
    | closes d' text' body rest hcarry' hsplit =>
      rw [hcarry, Carry.string.injEq] at hcarry'
      obtain ⟨rfl, rfl⟩ := hcarry'
      exact Or.inr ⟨.string, body, _, rfl, splitAtCloser_ne_nil hsplit, Or.inl rfl⟩
    | givesUp d' text' hcarry' hsplit hsingle hend =>
      rw [hcarry, Carry.string.injEq] at hcarry'
      obtain ⟨rfl, rfl⟩ := hcarry'
      exact Or.inr ⟨.unrecognized, line, _, rfl, hline, Or.inr rfl⟩
    | staysOpen d' text' hcarry' hsplit hgoes =>
      rw [hcarry, Carry.string.injEq] at hcarry'
      obtain ⟨rfl, rfl⟩ := hcarry'
      rcases ih rfl hlater hmore with hopen | ⟨kind, body, rest, hpieces, hne, hkind⟩
      · exact Or.inl hopen
      · have hmore := List.append_ne_nil_of_left_ne_nil hline body
        refine Or.inr ⟨kind, line ++ body, rest, ?_, hmore, hkind⟩
        rw [List.nil_append, hpieces, List.append_assoc]
    | noCode pieces hnothing hdepth hstart =>
      rw [hcarry] at hnothing
      cases hnothing
    | code before levels rest hnothing hdepth hstart =>
      rw [hcarry] at hnothing
      cases hnothing
    | within hother =>
      rw [hcarry] at hother
      simp at hother

section Above

variable {above : List Text} {front : List Piece} {s : State}

/-- Behind whole lines that leave no string open stands the start of the next line. -/
theorem past_of_cutLines (hwhole : ∀ line ∈ above, ∃ body, line = body ++ ['\n'] ∧ '\n' ∉ body)
    (h : cutLines {} above = .ok (front, s)) (hcarry : s.carry.text = []) :
    Position.origin.past (Piece.cover front) = ⟨above.length + 1, 0⟩ := by
  have hcover := cutLines_cover h
  rw [hcarry, List.append_nil] at hcover
  rw [hcover, Nat.add_comm]
  exact Text.past_flatten 1 hwhole

/-- Tokens of whole lines stop on these lines, if no string is open behind them. -/
theorem stop_line_le (hwhole : ∀ line ∈ above, ∃ body, line = body ++ ['\n'] ∧ '\n' ∉ body)
    (h : cutLines {} above = .ok (front, s)) (hcarry : s.carry.text = []) {table : Array Text}
    {t : Token} (ht : t ∈ Piece.place table .origin front) : t.stop.line ≤ above.length := by
  have hne : ∀ line ∈ above, line ≠ [] := by
    intro line hline
    obtain ⟨body, rfl, -⟩ := hwhole line hline
    simp
  have hshaped := cutLines_shaped hne h
  rw [hcarry] at hshaped
  exact Nat.le_of_lt_succ
    (Piece.stop_line_lt hshaped.anchored (past_of_cutLines hwhole h hcarry) ht)

end Above

end Segmentation

namespace Accepted

variable {source : Text} {tokens before after : List Token} {t : Token} {pieces : List Piece}
  {levels : List Nat}

theorem kind_of_supplied
    (h : t ∈ suppliedNewline (Text.lines source) ++ closing (Text.lines source).length levels) :
    t.kind = .newline ∨ t.kind.isStructural := by
  rcases List.mem_append.1 h with h | h
  · exact Or.inl (endsStatement_of_supplied h).kind
  · exact Or.inr (mem_closing h).1

/-- A token that neither ends a statement nor marks a block has its lexeme. -/
theorem exists_lexeme_of_kind (h : Accepted source tokens pieces levels) (ht : t ∈ tokens)
    (hnewline : t.kind ≠ .newline) (hplain : ¬ t.kind.isStructural) :
    ∃ front kind text back, pieces = front ++ .lexeme kind text :: back ∧
      t = Piece.token (Text.lines source).toArray (Position.origin.past (Piece.cover front)) kind
        text := by
  rcases h.mem_cases ht with hplaced | hbehind
  · exact Piece.exists_lexeme_of_mem_place hplaced
  · exact (kind_of_supplied (List.mem_append.2 hbehind)).elim (absurd · hnewline)
      (absurd · hplain)

/-- Each token has its lexeme, or it is supplied behind the source. -/
theorem split_cases (h : Accepted source tokens pieces levels)
    (ht : tokens = before ++ t :: after) :
    (∃ front kind text back, pieces = front ++ .lexeme kind text :: back ∧
      before = Piece.place (Text.lines source).toArray .origin front ∧
      t = Piece.token (Text.lines source).toArray (Position.origin.past (Piece.cover front)) kind
        text) ∨
    ∃ supplied, before = Piece.place (Text.lines source).toArray .origin pieces ++ supplied ∧
      suppliedNewline (Text.lines source) ++ closing (Text.lines source).length levels =
        supplied ++ t :: after := by
  have htokens := h.tokens_eq
  rw [ht, List.append_assoc] at htokens
  rcases List.append_eq_append_iff.1 htokens with
    ⟨middle, hplace, hbehind⟩ | ⟨middle, rfl, hbehind⟩
  · cases middle with
    | nil => exact Or.inr ⟨[], by simpa using hplace.symm, hbehind.symm⟩
    | cons first middle =>
      obtain ⟨rfl, -⟩ := List.cons.inj hbehind
      obtain ⟨front, kind, text, back, hpieces, hbefore, ht⟩ := Piece.exists_split_of_place hplace
      exact Or.inl ⟨front, kind, text, back, hpieces, hbefore, ht⟩
  · exact Or.inr ⟨middle, rfl, hbehind⟩

end Accepted

end SourceTokens
