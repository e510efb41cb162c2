import SourceTokens.Proofs.Brackets

/-!
Lines that nothing ties to the lines above them. Whether a bracket, a string or a continuation is
open at the start of a line shows in the tokens: in the operators that start above the line, in a
token that reaches into it, and in the line feed before it, which lies in no token if it belongs to
a continuation.
-/

namespace SourceTokens

/-- A line that nothing ties to the lines above it: no bracket is open there, no token reaches into
the line, and the line feed in front of it lies in a token and so belongs to no continuation. -/
structure FreshLine (source : Text) (tokens : List Token) (number : Nat) : Prop where
  brackets : bracketDepth (tokens.filter (·.start.line < number)) = 0
  strings : ∀ t ∈ tokens, t.start < ⟨number, 0⟩ → t.stop ≤ ⟨number, 0⟩
  continuation : ∀ q ∈ Text.placed source, q.1.line + 1 = number → q.2 = '\n' →
    ¬ Uncovered tokens q.1

namespace Indentation

/-- What stands before the code of a line is blank. -/
theorem not_feed_of_code {levels next : List Nat} {line rest : Text} {pieces : List Piece}
    (h : LineStart levels line (.code pieces next rest)) : '\n' ∉ Piece.cover pieces := by
  have hgap : ∀ blanks : Text, blanks.all Text.isBlank → '\n' ∉ Piece.cover [.gap blanks] := by
    intro blanks hblanks
    rw [Piece.cover_singleton]
    exact Text.not_feed_of_blanks hblanks
  cases h with
  | opens blanks c rest hblanks hline hc hwidth => exact hgap blanks hblanks
  | closes blanks c rest hblanks hline hc hwidth hopen =>
    rw [Piece.cover_cons, cover_dedents, List.append_nil]
    exact Text.not_feed_of_blanks hblanks
  | stays blanks c rest hblanks hline hc hwidth => exact hgap blanks hblanks

theorem not_feed_of_noCode {levels : List Nat} {line mark : Text} {pieces : List Piece}
    (h : LineStart levels line (.noCode pieces)) (hmem : .gap mark ∈ pieces) : '\n' ∉ mark := by
  cases h with
  | blank hline =>
    cases List.mem_singleton.1 hmem
    exact Text.not_feed_of_blanks hline
  | comment blanks rest hblanks =>
    simp only [List.mem_cons, Piece.gap.injEq, reduceCtorEq, List.not_mem_nil, or_false] at hmem
    rw [hmem]
    exact Text.not_feed_of_blanks hblanks
  | lineBreak blanks c rest hblanks =>
    simp only [List.mem_cons, Piece.gap.injEq, reduceCtorEq, List.not_mem_nil, or_false] at hmem
    rw [hmem]
    exact Text.not_feed_of_blanks hblanks

end Indentation

namespace Segmentation

open LineScan StringLiteral

/-- A string that is open covers some text. -/
theorem carry_ne_nil_of_cutLines {s : State} {lines : List Text} {pieces : List Piece}
    (h : cutLines {} lines = .ok (pieces, s)) {d : Delimiter} {text : Text}
    (hcarry : s.carry = .string d text) : text ≠ [] := by
  have hopen : ∀ d text, s.carry = .string d text → text ≠ [] := by
    apply invariant_of_cutLines (I := fun s => ∀ d text, s.carry = .string d text → text ≠ []) _ h
    · intro d text hnone
      cases hnone
    · intro s line pieces next hcut hs
      have hscan : ∀ levels depth rest d text,
          (State.ofScan levels (scan depth rest)).carry = .string d text → text ≠ [] :=
        fun levels depth rest d text => carry_ne_nil_of_scan
      cases hcut with
      | closes d opened body rest hcarry hsplit => exact hscan _ _ _
      | givesUp => exact nofun
      | staysOpen d opened hcarry hsplit hgoes =>
        intro d' text heq
        cases heq
        exact List.append_ne_nil_of_left_ne_nil (hs d opened hcarry) line
      | noCode => exact hs
      | code => exact hscan _ _ _
      | within => exact hscan _ _ _
  exact hopen d text hcarry

/-- A line that the statement goes on from ends in the continuation. -/
theorem exists_continuation_of_lineCut {s next : State} {line : Text} {pieces : List Piece}
    (h : LineCut s line pieces next) (hcarry : next.carry = .continuation) :
    ∃ front mark, pieces = front ++ [.gap mark] ∧ isContinuation mark := by
  have hscan : ∀ (before : List Piece) (depth : Nat) (rest : Text),
      (scan depth rest).carry = .continuation →
      ∃ front mark, before ++ (scan depth rest).pieces = front ++ [.gap mark] ∧
        isContinuation mark := by
    intro before depth rest hrest
    obtain ⟨front, mark, hpieces, hmark⟩ := exists_continuation_of_scan hrest
    refine ⟨before ++ front, mark, ?_, hmark⟩
    rw [hpieces, List.append_assoc]
  cases h with
  | closes d opened body rest => exact hscan [_] _ rest hcarry
  | givesUp => cases hcarry
  | staysOpen => cases hcarry
  | noCode pieces hnothing =>
    rw [hnothing] at hcarry
    cases hcarry
  | code before levels rest => exact hscan before _ rest hcarry
  | within => exact hscan [] _ line hcarry

/-- Behind a run of lines that a statement goes on from stands the continuation. -/
theorem exists_continuation_of_cutLines {s : State} {lines : List Text} {pieces : List Piece}
    (h : cutLines {} lines = .ok (pieces, s)) (hcarry : s.carry = .continuation) :
    ∃ front mark, pieces = front ++ [.gap mark] ∧ isContinuation mark := by
  rcases List.eq_nil_or_concat lines with rfl | ⟨upper, line, rfl⟩
  · cases h
    cases hcarry
  · rw [List.concat_eq_append] at h
    obtain ⟨more, middle, first, rfl, -, hline⟩ := exists_cutLines_of_append h
    obtain ⟨front, mark, rfl, hmark⟩ :=
      exists_continuation_of_lineCut (lineCut_of_singleton hline) hcarry
    exact ⟨more ++ front, mark, by rw [List.append_assoc], hmark⟩

/-- A gap that holds a line feed is the continuation at the end of its line. -/
theorem continuation_of_gap {depth : Nat} {text mark : Text}
    (h : .gap mark ∈ (scan depth text).pieces) (hfeed : '\n' ∈ mark) :
    (scan depth text).carry = .continuation := by
  induction depth, text using scan_induction with
  | nil => cases h
  | piece depth c rest piece after htaken hcover ih =>
    rcases List.mem_cons.1 h with rfl | h
    · cases htaken with
      | blanks hc => exact absurd hfeed (Text.not_feed_of_blanks List.all_takeWhile)
    · exact ih h
  | continuation => rfl
  | unclosed => cases h

theorem continuation_of_feed_gap {s next : State} {line mark : Text} {pieces : List Piece}
    (h : LineCut s line pieces next) (hmem : .gap mark ∈ pieces) (hfeed : '\n' ∈ mark) :
    next.carry = .continuation := by
  cases h with
  | closes d opened body rest hcarry hsplit =>
    rcases List.mem_cons.1 hmem with heq | hmem
    · cases heq
    · exact continuation_of_gap hmem hfeed
  | givesUp => cases List.mem_singleton.1 hmem
  | staysOpen => cases hmem
  | noCode pieces hcarry hdepth hstart =>
    exact absurd hfeed (Indentation.not_feed_of_noCode hstart hmem)
  | code before levels rest hcarry hdepth hstart =>
    rcases List.mem_append.1 hmem with hmem | hmem
    · exact absurd (List.mem_flatMap.2 ⟨_, hmem, hfeed⟩) (Indentation.not_feed_of_code hstart)
    · exact continuation_of_gap hmem hfeed
  | within => exact continuation_of_gap hmem hfeed

/-- What whole lines cover stands on these lines. -/
theorem line_le_of_cover {lines : List Text} {pieces : List Piece} {s : State}
    (hwhole : ∀ line ∈ lines, ∃ body, line = body ++ ['\n'] ∧ '\n' ∉ body)
    (h : cutLines {} lines = .ok (pieces, s)) {q : Position × Char}
    (hq : q ∈ Text.placedFrom .origin (Piece.cover pieces)) : q.1.line ≤ lines.length := by
  have hcover := cutLines_cover h
  have hpast := Text.past_flatten 1 hwhole
  have hend := (Text.bounds_of_mem_placedFrom hq).2.trans_le (Position.stop_le_past _ _)
  have hreach := Position.le_past (Position.origin.past (Piece.cover pieces)) s.carry.text
  rw [← Position.past_append, hcover] at hreach
  have hlt := hend.trans_le hreach
  change q.1 < Position.past ⟨1, 0⟩ lines.flatten at hlt
  rw [hpast] at hlt
  rcases hlt with hline | ⟨-, hcol⟩
  · change q.1.line < 1 + lines.length at hline
    omega
  · cases hcol

end Segmentation

open Segmentation LineScan

/-- A source seen from the start of one of its lines: the pieces of the lines above, the state in
which they leave the line, and the pieces of the line and of those below it. -/
structure CutAt (source : Text) (pieces : List Piece) (levels : List Nat) (above : List Text)
    (line : Text) (below : List Text) (front : List Piece) (s : State) (back : List Piece) :
    Prop where
  lines_eq : Text.lines source = above ++ line :: below
  pieces_eq : pieces = front ++ back
  cut_above : cutLines {} above = .ok (front, s)
  cut_below : cutLines s (line :: below) = .ok (back, { levels := levels })

namespace CutAt

variable {source line : Text} {tokens : List Token} {pieces front back : List Piece}
  {levels : List Nat} {above below : List Text} {s : State}

theorem whole (h : CutAt source pieces levels above line below front s back) :
    ∀ line ∈ above, ∃ body, line = body ++ ['\n'] ∧ '\n' ∉ body :=
  (Text.whole_of_lines h.lines_eq).1

/-- Behind what was cut above the line and what it leaves open stands the start of the line. -/
theorem past_carry (h : CutAt source pieces levels above line below front s back) :
    (Position.origin.past (Piece.cover front)).past s.carry.text = ⟨above.length + 1, 0⟩ := by
  have hcover := cutLines_cover h.cut_above
  rw [← Position.past_append, hcover, Nat.add_comm]
  exact Text.past_flatten 1 h.whole

/-- A string that is open at the start of a line ends in a token that reaches into the line. -/
theorem carry_ne_string (h : CutAt source pieces levels above line below front s back)
    (hacc : Accepted source tokens pieces levels)
    (hfresh : FreshLine source tokens (above.length + 1)) (d : StringLiteral.Delimiter)
    (text : Text) : s.carry ≠ .string d text := by
  intro hcarry
  have hlines : ∀ other ∈ line :: below, other ≠ [] := by
    intro other hother
    have hmem : other ∈ Text.lines source := by
      rw [h.lines_eq]
      exact List.mem_append_right _ hother
    exact Text.ne_nil_of_mem_lines hmem
  have hpast := h.past_carry
  rw [hcarry] at hpast
  rcases cutLines_of_string hcarry hlines h.cut_below with
    ⟨opened, hopen⟩ | ⟨kind, more, rest, hback, hmore, -⟩
  · cases hopen
  · have hpieces := h.pieces_eq
    rw [hback] at hpieces
    have hstart := Position.lt_past (Position.origin.past (Piece.cover front))
      (carry_ne_nil_of_cutLines h.cut_above hcarry)
    have hstop := Position.past_lt_stop (Position.origin.past (Piece.cover front)) text hmore
    rw [Carry.text] at hpast
    rw [hpast] at hstart hstop
    exact not_le.2 hstop (hfresh.strings _ (hacc.token_mem hpieces) hstart)

/-- The line feed of a continuation lies in no token. -/
theorem carry_ne_continuation (h : CutAt source pieces levels above line below front s back)
    (hacc : Accepted source tokens pieces levels)
    (hfresh : FreshLine source tokens (above.length + 1)) : s.carry ≠ .continuation := by
  intro hcarry
  obtain ⟨first, mark, rfl, hmark⟩ := exists_continuation_of_cutLines h.cut_above hcarry
  obtain ⟨body, rfl⟩ : ∃ body, mark = body ++ ['\n'] := by
    simp only [StringLiteral.isContinuation, Bool.or_eq_true, beq_iff_eq] at hmark
    rcases hmark with rfl | rfl
    · exact ⟨['\\'], rfl⟩
    · exact ⟨['\\', '\r'], rfl⟩
  have hpieces : pieces = first ++ .gap (body ++ ['\n']) :: back := by
    rw [h.pieces_eq, List.append_assoc]
    rfl
  have hpast := h.past_carry
  rw [hcarry, Piece.cover_append, Piece.cover_singleton, Position.past_append] at hpast
  change Position.past _ (body ++ ['\n']) = _ at hpast
  rw [Position.past_append] at hpast
  let p := (Position.origin.past (Piece.cover first)).past body
  have hstep : p.step '\n' = ⟨above.length + 1, 0⟩ := hpast
  have hgap : (p, '\n') ∈
      Text.placedFrom (Position.origin.past (Piece.cover first)) (body ++ ['\n']) := by
    rw [Text.placedFrom_append]
    exact List.mem_append_right _ (List.mem_cons_self ..)
  have hplaced : (p, '\n') ∈ Text.placed source := by
    rw [Text.placed_eq_placedFrom, hacc.source_eq hpieces, Text.placedFrom_append,
      Text.placedFrom_append]
    exact List.mem_append_left _ (List.mem_append_right _ hgap)
  have hline : p.line + 1 = above.length + 1 := congrArg Position.line hstep
  exact hfresh.continuation (p, '\n') hplaced hline rfl (hacc.uncovered_of_gap hpieces hgap)

/-- The tokens that start above a line are those of the lines above, if no string is open. -/
theorem filter_above (h : CutAt source pieces levels above line below front s back)
    (hacc : Accepted source tokens pieces levels) (hnone : s.carry.text = []) :
    tokens.filter (·.start.line < above.length + 1) =
      Piece.place (Text.lines source).toArray .origin front := by
  have hpast := past_of_cutLines h.whole h.cut_above hnone
  have habove : ∀ t ∈ Piece.place (Text.lines source).toArray .origin front,
      t.start.line < above.length + 1 := by
    intro t ht
    have hstop := stop_line_le h.whole h.cut_above hnone ht
    have hstart := Position.line_le_of_le (Piece.start_le_stop_of_mem_place ht)
    omega
  have hbelow : ∀ t ∈ Piece.place (Text.lines source).toArray
      (Position.origin.past (Piece.cover front)) back, ¬ t.start.line < above.length + 1 := by
    intro t ht
    have hstart := Position.line_le_of_le (Piece.start_le_of_mem_place ht)
    rw [hpast] at hstart
    exact Nat.not_lt.2 hstart
  have hsupplied : ∀ t ∈ suppliedNewline (Text.lines source) ++
      closing (Text.lines source).length levels, ¬ t.start.line < above.length + 1 := by
    intro t ht
    have hend := Accepted.past_le_of_supplied (List.mem_append.1 ht)
    have hcover := Position.le_past ⟨above.length + 1, 0⟩ (Piece.cover back)
    rw [← hpast, ← Position.past_append, ← Piece.cover_append, ← h.pieces_eq, hacc.cover,
      hpast] at hcover
    exact Nat.not_lt.2 (Position.line_le_of_le (hcover.trans hend))
  rw [hacc.tokens_eq, List.append_assoc, h.pieces_eq, Piece.place_append, List.filter_append,
    List.filter_append, List.filter_eq_self.2, List.filter_eq_nil_iff.2, List.filter_eq_nil_iff.2,
    List.append_nil, List.append_nil]
  · intro t ht
    simpa using hsupplied t ht
  · intro t ht
    simpa using hbelow t ht
  · intro t ht
    simpa using habove t ht

/-- If nothing is open at the start of a line, the line feed in front of it lies in a token. -/
theorem feed_covered (h : CutAt source pieces levels above line below front s back)
    (hacc : Accepted source tokens pieces levels) (hcarry : s.carry = .nothing)
    {q : Position × Char} (hq : q ∈ Text.placed source) (hline : q.1.line + 1 = above.length + 1)
    (hfeed : q.2 = '\n') : ¬ Uncovered tokens q.1 := by
  intro huncovered
  have hnumber := (Text.getElem?_of_mem_placedLines hq).1
  obtain ⟨upper, last, rfl⟩ : ∃ upper last, above = upper ++ [last] := by
    rcases List.eq_nil_or_concat above with rfl | ⟨upper, last, rfl⟩
    · rw [List.length_nil] at hline
      omega
    · exact ⟨upper, last, List.concat_eq_append⟩
  have hpast := h.past_carry
  rw [hcarry] at hpast
  obtain ⟨more, middle, first, rfl, hmore, hfirst⟩ := exists_cutLines_of_append h.cut_above
  have hpieces : pieces = more ++ (first ++ back) := by
    rw [h.pieces_eq, List.append_assoc]
  rw [Text.placed_eq_placedFrom, ← hacc.cover, hpieces, Piece.cover_append, Text.placedFrom_append,
    Piece.cover_append, Text.placedFrom_append, ← Position.past_append, ← Piece.cover_append] at hq
  rcases List.mem_append.1 hq with hq | hq
  · have hwhole : ∀ line ∈ upper, ∃ body, line = body ++ ['\n'] ∧ '\n' ∉ body :=
      fun line hline => h.whole line (List.mem_append_left _ hline)
    have hle := line_le_of_cover hwhole hmore hq
    rw [List.length_append, List.length_singleton] at hline
    omega
  · rcases List.mem_append.1 hq with hq | hq
    · obtain ⟨before, piece, after, rfl, hmem⟩ := Piece.exists_piece_of_mem_placedFrom hq
      rw [← Position.past_append, ← Piece.cover_append] at hmem
      cases piece with
      | gap text =>
        have htext : '\n' ∈ text := by
          rw [← Text.map_snd_placedFrom (Position.origin.past (Piece.cover (more ++ before))) text,
            ← hfeed]
          exact List.mem_map_of_mem hmem
        have hgap := List.mem_append_right before (List.mem_cons_self (a := .gap text) (l := after))
        have hopen := continuation_of_feed_gap (lineCut_of_singleton hfirst) hgap htext
        rw [hcarry] at hopen
        cases hopen
      | lexeme kind text =>
        have htoken : pieces = (more ++ before) ++ .lexeme kind text :: (after ++ back) := by
          rw [hpieces]
          simp only [List.append_assoc, List.cons_append]
        exact huncovered _ (hacc.token_mem htoken) (Text.bounds_of_mem_placedFrom hmem)
    · -- What the line and those below it cover starts where the line starts.
      have hstart := (Text.bounds_of_mem_placedFrom hq).1
      change Position.origin.past (Piece.cover (more ++ first)) = _ at hpast
      rw [hpast] at hstart
      have hle := Position.line_le_of_le hstart
      change (upper ++ [last]).length + 1 ≤ q.1.line at hle
      omega

/-- The brackets open at the start of a line are those of the tokens that start above it, if no
string is open. -/
theorem depth_eq (h : CutAt source pieces levels above line below front s back)
    (hacc : Accepted source tokens pieces levels) (hnone : s.carry.text = []) :
    bracketDepth (tokens.filter (·.start.line < above.length + 1)) = s.depth := by
  rw [h.filter_above hacc hnone, bracketDepth, foldl_depthAfter_place]
  exact (cutLines_depth h.cut_above).1

/-- A line is fresh exactly if the lines above it leave nothing open. -/
theorem fresh_iff (h : CutAt source pieces levels above line below front s back)
    (hacc : Accepted source tokens pieces levels) :
    FreshLine source tokens (above.length + 1) ↔ s.carry = .nothing ∧ s.depth = 0 := by
  have hbrackets : s.carry = .nothing →
      bracketDepth (tokens.filter (·.start.line < above.length + 1)) = s.depth := by
    intro hcarry
    exact h.depth_eq hacc (by rw [hcarry]; rfl)
  constructor
  · intro hfresh
    have hcarry : s.carry = .nothing := by
      cases hs : s.carry with
      | nothing => rfl
      | continuation => exact absurd hs (h.carry_ne_continuation hacc hfresh)
      | string d text => exact absurd hs (h.carry_ne_string hacc hfresh d text)
    exact ⟨hcarry, (hbrackets hcarry).symm.trans hfresh.brackets⟩
  · rintro ⟨hcarry, hdepth⟩
    refine ⟨(hbrackets hcarry).trans hdepth, ?_, fun q => h.feed_covered hacc hcarry⟩
    intro t ht hstart
    have hline : t.start.line < above.length + 1 := by
      rcases hstart with hline | ⟨-, hcol⟩
      · exact hline
      · cases hcol
    have hmem : t ∈ tokens.filter (·.start.line < above.length + 1) :=
      List.mem_filter.2 ⟨ht, decide_eq_true hline⟩
    rw [h.filter_above hacc (by rw [hcarry]; rfl)] at hmem
    have hstop := stop_line_le h.whole h.cut_above (by rw [hcarry]; rfl) hmem
    exact Or.inl (Nat.lt_succ_of_le hstop)

end CutAt

namespace Accepted

variable {source : Text} {tokens : List Token} {pieces : List Piece} {levels : List Nat}

/-- An accepted source can be seen from the start of each of its lines. -/
theorem exists_cutAt (h : Accepted source tokens pieces levels) {number : Nat} {line : Text}
    (hline : Text.physicalLine? source number = some line) :
    ∃ above below front s back, number = above.length + 1 ∧
      CutAt source pieces levels above line below front s back := by
  cases number with
  | zero => cases hline
  | succ n =>
    obtain ⟨hn, rfl⟩ := List.getElem?_eq_some_iff.1 hline
    have hlines : Text.lines source = (Text.lines source).take n ++
        (Text.lines source)[n] :: (Text.lines source).drop (n + 1) := by
      rw [← List.drop_eq_getElem_cons hn, List.take_append_drop]
    have hcut := h.cut
    rw [hlines] at hcut
    obtain ⟨front, s, back, hpieces, habove, hbelow⟩ := exists_cutLines_of_append hcut
    refine ⟨_, _, front, s, back, ?_, ⟨hlines, hpieces, habove, hbelow⟩⟩
    rw [List.length_take_of_le (Nat.le_of_lt hn)]

end Accepted

end SourceTokens
