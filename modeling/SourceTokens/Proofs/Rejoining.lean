import SourceTokens.Proofs.LineReplay
import SourceTokens.Proofs.Scrubbing

/-!
Sources with continuations, written again from their tokens. A continuation comes back as one where
text stands in front of it on its line, and in brackets a bare line feed does as well. So if no
continuation outside brackets stands on a line without text, the statements stay joined. Otherwise a
bare line feed may end a statement that goes on, and the padding on the next line is taken for an
indent.
-/

namespace SourceTokens

open Rebuild Segmentation LineScan

namespace Text

/-- The lines of a text are whole but for the last one. -/
theorem lines_flatten_cons {line : Text} {below : List Text} :
    lines (line :: below).flatten = line :: below ↔
      (Whole line ∨ below = [] ∧ '\n' ∉ line ∧ line ≠ []) ∧ lines below.flatten = below := by
  have hwhole : Whole line → lines (line ++ below.flatten) = line :: lines below.flatten := by
    rintro ⟨body, rfl, hbody⟩
    rw [lines_append (Or.inr (by simp)), lines_of_feed hbody, List.singleton_append]
  rw [List.flatten_cons]
  constructor
  · intro h
    have hsplit : lines (line ++ below.flatten) = [] ++ line :: below := h
    have hline := (whole_of_lines hsplit).2
    have hne : line ≠ [] := ne_nil_of_mem_lines (by rw [h]; exact List.mem_cons_self ..)
    rcases hline with hline | ⟨rfl, hfeed⟩
    · rw [hwhole hline, List.cons.injEq] at h
      exact ⟨Or.inl hline, h.2⟩
    · exact ⟨Or.inr ⟨rfl, hfeed, hne⟩, rfl⟩
  · rintro ⟨hline | ⟨rfl, hfeed, hne⟩, hbelow⟩
    · rw [hwhole hline, hbelow]
    · rw [List.flatten_nil, List.append_nil]
      exact lines_of_open hfeed hne

end Text

namespace Segmentation

def Joined (s : State) (lines : List Text) : Prop :=
  ∀ above line below front middle pieces next, lines = above ++ line :: below →
    cutLines s above = .ok (front, middle) → cutLine middle line = .ok (pieces, next) →
    next.carry = .continuation → (∀ piece ∈ pieces, silent piece) → middle.depth ≠ 0

variable {s next last : State} {line : Text} {below : List Text} {first pieces : List Piece}

theorem Joined.head (h : Joined s (line :: below)) (hcut : cutLine s line = .ok (pieces, next))
    (hcarry : next.carry = .continuation) (hsilent : ∀ piece ∈ pieces, silent piece) :
    s.depth ≠ 0 :=
  h [] line below [] s pieces next rfl rfl hcut hcarry hsilent

theorem Joined.tail (h : Joined s (line :: below)) (hcut : cutLine s line = .ok (first, next)) :
    Joined next below := by
  intro above other rest front middle pieces after hlines habove
  apply h (line :: above) other rest (first ++ front) middle pieces after
  · rw [hlines, List.cons_append]
  · simp only [cutLines, hcut, habove]

end Segmentation

namespace Rebuild

variable {p stop : Position} {s last : State} {lines : List Text} {pieces : List Piece}
  {later : List Token} {needs : Bool}

structure Ending (stop : Position) (needs : Bool) (later : List Token) : Prop where
  start_le : ∀ t ∈ later, stop ≤ t.start
  supplied : needs = true → StartsAt stop later
  silent : needs = false → ∀ t ∈ later, t.writesNothing
  written_eq : written stop later = []

/-- Lines that can be written for others: there are as many, and from any state that can stand for
the first one they are cut into the same code. -/
structure ReplaysAll (s : State) (lines : List Text) (pieces : List Piece) (last : State)
    (lines' : List Text) : Prop where
  cut : ∀ s', Stands s s' → ∃ pieces' last', cutLines s' lines' = .ok (pieces', last') ∧
    Stands last last' ∧ Piece.code pieces' = Piece.code pieces
  lines_eq : Text.lines lines'.flatten = lines'
  length_eq : lines'.length = lines.length
  needs : needsNewline (lines'.getLastD []) = needsNewline (lines.getLastD [])

theorem ReplaysAll.nil (s : State) : ReplaysAll s [] [] s [] where
  cut s' hstands := ⟨[], s', rfl, hstands, rfl⟩
  lines_eq := rfl
  length_eq := rfl
  needs := rfl

theorem ReplaysAll.cons {next : State} {line line' : Text} {below below' : List Text}
    {first more : List Piece} (hline : Replays s line first next line')
    (hends : Text.Whole line ∨ below = [] ∧ '\n' ∉ line ∧ line ≠ [])
    (hbelow : ReplaysAll next below more last below') :
    ReplaysAll s (line :: below) (first ++ more) last (line' :: below') where
  cut s' hstands := by
    obtain ⟨first', next', hfirst, hnext, hcode⟩ := hline.cut
    obtain ⟨more', last', hmore, hlast, hcode'⟩ := hbelow.cut next' hnext
    refine ⟨first' ++ more', last', ?_, hlast, ?_⟩
    · simp only [cutLines, hstands.cutLine_eq, hfirst, hmore]
    · rw [Piece.code_append, Piece.code_append, hcode, hcode']
  lines_eq := by
    refine Text.lines_flatten_cons.2 ⟨?_, hbelow.lines_eq⟩
    refine hends.imp hline.whole ?_
    rintro ⟨rfl, hfeed, hne⟩
    exact ⟨List.length_eq_zero_iff.1 hbelow.length_eq, hline.unended hfeed hne⟩
  length_eq := congrArg (· + 1) hbelow.length_eq
  needs := by
    have hneeds := hbelow.needs
    have hlength := hbelow.length_eq
    cases below with
    | nil =>
      rw [List.length_eq_zero_iff.1 hlength]
      exact hline.needs
    | cons other below =>
      obtain ⟨other', below'', rfl⟩ := List.exists_cons_of_length_eq_add_one hlength
      exact hneeds

/-- What is known of the tokens behind the first line of a run. -/
theorem below_of_run (table : Array Text) {next : State} {line : Text} {below below' : List Text}
    {more : List Piece} (hmore : cutLines next below = .ok (more, last))
    (hclosed : last.carry = .nothing) (hbelow : ∀ line ∈ below, line ≠ [])
    (hends : Text.Whole line ∨ below = [] ∧ '\n' ∉ line ∧ line ≠ [])
    (hending : Ending (p.past (Piece.cover more)) needs later)
    (hneeds : needsNewline ((line :: below).getLastD []) = needs)
    (hwritten : written p (Piece.place table p more ++ later) =
      next.carry.text ++ below'.flatten)
    (hlength : below'.length = below.length) (hlines : Text.lines below'.flatten = below') :
    Below line next p (Piece.place table p more ++ later) where
  start_le t ht := by
    rcases List.mem_append.1 ht with ht | ht
    · exact Piece.start_le_of_mem_place ht
    · exact (Position.le_past _ _).trans (hending.start_le t ht)
  string d text hcarry := by
    rcases cutLines_of_string hcarry hbelow hmore with
      ⟨opened, hopen⟩ | ⟨kind, body, rest, rfl, -, hkind⟩
    · rw [hclosed] at hopen
      cases hopen
    · refine ⟨Piece.token table p kind (text ++ body), _, rfl, rfl, ?_⟩
      rcases hkind with rfl | rfl <;> rfl
  continuation hcarry := by
    by_contra hnone
    have hsilent : ∀ t ∈ Piece.place table p more ++ later, t.writesNothing := by
      intro t ht
      by_contra hwrites
      exact hnone ⟨t, ht, Bool.not_eq_true _ ▸ hwrites⟩
    rw [written_of_writesNothing p hsilent] at hwritten
    have hempty := (List.append_eq_nil_iff.1 hwritten.symm).2
    rw [hempty] at hlines
    rw [← hlines] at hlength
    obtain rfl := List.length_eq_zero_iff.1 hlength.symm
    cases hmore
    rw [hclosed] at hcarry
    cases hcarry
  supplied hfeed hline := by
    rcases hends with hwhole | ⟨rfl, -, -⟩
    · exact absurd hwhole.feed hfeed
    · cases hmore
      exact hending.supplied (hneeds.symm.trans hline)
  silent hfeed hline := by
    rcases hends with hwhole | ⟨rfl, -, -⟩
    · exact absurd hwhole.feed hfeed
    · cases hmore
      exact hending.silent (hneeds.symm.trans hline)

/-- What is written for the pieces of a run is the text of lines that can stand for its lines. -/
theorem exists_replayAll (table : Array Text) (hcut : cutLines s lines = .ok (pieces, last))
    (hclosed : last.carry = .nothing) (hgaps : PlainGaps pieces) (hjoined : Joined s lines)
    (hlines : Text.lines lines.flatten = lines)
    (hstart : lines ≠ [] → ∃ number, p.past s.carry.text = ⟨number, 0⟩)
    (hending : Ending (p.past (Piece.cover pieces)) needs later)
    (hneeds : lines ≠ [] → needsNewline (lines.getLastD []) = needs) :
    ∃ lines', ReplaysAll s lines pieces last lines' ∧
      written p (Piece.place table p pieces ++ later) = s.carry.text ++ lines'.flatten := by
  induction lines generalizing s p pieces with
  | nil =>
    cases hcut
    refine ⟨[], .nil _, ?_⟩
    rw [hclosed]
    exact hending.written_eq
  | cons line below ih =>
    obtain ⟨first, next, more, rfl, hfirst, hmore⟩ := exists_cutLine_of_cutLines hcut
    obtain ⟨hends, hbelow⟩ := Text.lines_flatten_cons.1 hlines
    obtain ⟨number, hnumber⟩ := hstart (List.cons_ne_nil _ _)
    have hgapsFirst : PlainGaps first := fun text hmem => hgaps text (List.mem_append_left _ hmem)
    have hgapsMore : PlainGaps more := fun text hmem => hgaps text (List.mem_append_right _ hmem)
    rw [Piece.cover_append, Position.past_append] at hending
    obtain ⟨below', hreplays, hwritten⟩ := ih hmore hgapsMore (hjoined.tail hfirst) hbelow
      (fun hne => by
        rcases hends with hwhole | ⟨hnil, -, -⟩
        · exact ⟨number + 1, past_line hnumber hfirst hwhole⟩
        · exact absurd hnil hne)
      hending
      (fun hne => by
        obtain ⟨other, rest, rfl⟩ := List.exists_cons_of_ne_nil hne
        exact hneeds (List.cons_ne_nil _ _))
    have hline : Text.Whole line ∨ next.carry = .nothing ∧ '\n' ∉ line ∧ line ≠ [] := by
      refine hends.imp_right ?_
      rintro ⟨rfl, hfeed, hne⟩
      cases hmore
      exact ⟨hclosed, hfeed, hne⟩
    have hne : ∀ line ∈ below, line ≠ [] := by
      rw [← hbelow]
      exact fun _ => Text.ne_nil_of_mem_lines
    have hknown := below_of_run table hmore hclosed hne hends hending
      (hneeds (List.cons_ne_nil _ _)) hwritten hreplays.length_eq hreplays.lines_eq
    obtain ⟨line', hfirst', hwritten'⟩ := exists_replay table hnumber hfirst hgapsFirst
      (hjoined.head hfirst) hline hknown hwritten
    refine ⟨line' :: below', .cons hfirst' hends hreplays, ?_⟩
    rw [Piece.place_append, List.append_assoc, hwritten', List.flatten_cons]

end Rebuild

/-- Whether every continuation outside brackets stands behind text on its own line. -/
def ContinuesText (source : Text) (tokens : List Token) : Prop :=
  ∀ q ∈ Text.placed source, Uncovered tokens q.1 → q.2 = '\\' →
    bracketDepth (tokens.filter (·.start.line < q.1.line)) = 0 →
      ∃ r ∈ Text.placed source, r.1.line = q.1.line ∧ r.1 < q.1 ∧ ¬ Uncovered tokens r.1

instance (source : Text) (tokens : List Token) : Decidable (ContinuesText source tokens) :=
  inferInstanceAs (Decidable (∀ q ∈ Text.placed source, _ → _ → _ → ∃ r ∈ Text.placed source, _))

/-- No character of a continuation is a blank. -/
theorem InContinuation.not_blank {source : Text} {q : Position × Char}
    (h : InContinuation source q.1) (hq : q ∈ Text.placed source) : Text.isBlank q.2 = false := by
  obtain ⟨before, mark, after, rfl, hmark, hstart, hstop⟩ := h
  have hmem : q ∈ Text.placedFrom (Position.origin.past before) mark := by
    rw [Text.placed_eq_placedFrom, Text.placedFrom_append, Text.placedFrom_append] at hq
    rcases List.mem_append.1 hq with hq | hq
    · rcases List.mem_append.1 hq with hq | hq
      · have hlt := (Text.bounds_of_mem_placedFrom hq).2.trans_le (Position.stop_le_past _ _)
        exact absurd hstart (not_le.2 hlt)
      · exact hq
    · exact absurd (Text.bounds_of_mem_placedFrom hq).1 (not_le.2 hstop)
  have hchar := List.mem_map_of_mem (f := Prod.snd) hmem
  rw [Text.map_snd_placedFrom] at hchar
  simp only [StringLiteral.isContinuation, Bool.or_eq_true, beq_iff_eq] at hmark
  generalize q.2 = c at hchar
  rcases hmark with rfl | rfl
  · simp only [List.mem_cons, List.not_mem_nil, or_false] at hchar
    rcases hchar with rfl | rfl <;> rfl
  · simp only [List.mem_cons, List.not_mem_nil, or_false] at hchar
    rcases hchar with rfl | rfl | rfl <;> rfl

namespace Accepted

variable {source : Text} {tokens : List Token} {pieces : List Piece} {levels : List Nat}

theorem plainGaps (h : Accepted source tokens pieces levels)
    (hplain : ∀ q ∈ Text.placed source, Uncovered tokens q.1 →
      q.2 = ' ' ∨ InContinuation source q.1) : PlainGaps pieces := by
  intro text hmem
  rcases h.shaped.each (.gap text) hmem with hblanks | hmark
  · left
    intro c hc
    obtain ⟨q, hq, huncovered, rfl⟩ := h.exists_uncovered_of_gap hmem hc
    rcases hplain q hq huncovered with hspace | hcontinuation
    · exact hspace
    · have hblank := List.all_eq_true.1 hblanks _ hc
      rw [hcontinuation.not_blank hq] at hblank
      cases hblank
  · exact Or.inr hmark

/-- No character that lies on a line in front of its first text lies in a token. -/
theorem uncovered_of_silent (h : Accepted source tokens pieces levels)
    {front gaps back : List Piece} (hpieces : pieces = front ++ (gaps ++ back))
    (hsilent : ∀ piece ∈ gaps, silent piece) {number : Nat}
    (hstart : Position.origin.past (Piece.cover front) = ⟨number, 0⟩) {r : Position × Char}
    (hr : r ∈ Text.placed source) (hline : r.1.line = number)
    (hbefore : r.1 < Position.past ⟨number, 0⟩ (Piece.cover gaps)) : Uncovered tokens r.1 := by
  rw [Text.placed_eq_placedFrom, ← h.cover, hpieces, Piece.cover_append, Text.placedFrom_append,
    Piece.cover_append, Text.placedFrom_append, hstart] at hr
  rcases List.mem_append.1 hr with hr | hr
  · exfalso
    have hlt := (Text.bounds_of_mem_placedFrom hr).2.trans_le (Position.stop_le_past _ _)
    rw [hstart] at hlt
    rcases hlt with hlt | ⟨-, hcol⟩
    · exact absurd hline (Nat.ne_of_lt hlt)
    · cases hcol
  · rcases List.mem_append.1 hr with hr | hr
    · obtain ⟨before, piece, after, rfl, hmem⟩ := Piece.exists_piece_of_mem_placedFrom hr
      cases piece with
      | gap text =>
        have hgap : pieces = (front ++ before) ++ .gap text :: (after ++ back) := by
          rw [hpieces]
          simp only [List.append_assoc, List.cons_append]
        rw [← hstart, ← Position.past_append, ← Piece.cover_append] at hmem
        exact h.uncovered_of_gap hgap hmem
      | lexeme kind text =>
        rw [Piece.text, text_of_silent (hsilent (.lexeme kind text) (by simp))] at hmem
        cases hmem
    · exact absurd hbefore (not_lt.2 (Text.bounds_of_mem_placedFrom hr).1)

/-- A continuation without text in front of it on its line shows in the tokens. -/
theorem exists_bare (h : Accepted source tokens pieces levels) {front gaps more : List Piece}
    {rest : Text} (hpieces : pieces = front ++ (gaps ++ .gap ('\\' :: rest) :: more))
    (hsilent : ∀ piece ∈ gaps, silent piece) {number : Nat}
    (hstart : Position.origin.past (Piece.cover front) = ⟨number, 0⟩)
    (hfeed : '\n' ∉ Piece.cover gaps) :
    ∃ q ∈ Text.placed source, Uncovered tokens q.1 ∧ q.2 = '\\' ∧ q.1.line = number ∧
      ∀ r ∈ Text.placed source, r.1.line = number → r.1 < q.1 → Uncovered tokens r.1 := by
  have hgap : pieces = (front ++ gaps) ++ .gap ('\\' :: rest) :: more := by
    rw [hpieces, List.append_assoc]
  have hplace : Position.origin.past (Piece.cover (front ++ gaps)) =
      Position.past ⟨number, 0⟩ (Piece.cover gaps) := by
    rw [Piece.cover_append, Position.past_append, hstart]
  let q : Position × Char := (Position.past ⟨number, 0⟩ (Piece.cover gaps), '\\')
  have hfirst : q ∈ Text.placedFrom (Position.origin.past (Piece.cover (front ++ gaps)))
      ('\\' :: rest) := by
    rw [hplace]
    exact List.mem_cons_self ..
  refine ⟨q, ?_, h.uncovered_of_gap hgap hfirst, rfl, ?_, ?_⟩
  · rw [Text.placed_eq_placedFrom, h.source_eq hgap, Text.placedFrom_append,
      Text.placedFrom_append]
    exact List.mem_append_left _ (List.mem_append_right _ hfirst)
  · exact congrArg Position.line (Position.past_of_no_feed ⟨number, 0⟩ hfeed)
  · exact fun r hr hline => h.uncovered_of_silent hpieces hsilent hstart hr hline

theorem joined (h : Accepted source tokens pieces levels) (hjoins : ContinuesText source tokens) :
    Joined {} (Text.lines source) := by
  intro above line below front middle first next hlines habove hfirst hcarry hsilent hdepth
  have hcut := h.cut
  rw [hlines] at hcut
  obtain ⟨front', middle', back, hpieces, habove', hback⟩ := exists_cutLines_of_append hcut
  rw [habove] at habove'
  cases habove'
  obtain ⟨first', next', more, rfl, hfirst', -⟩ := exists_cutLine_of_cutLines hback
  rw [hfirst] at hfirst'
  cases hfirst'
  have hat : CutAt source pieces levels above line below front middle (first ++ more) :=
    ⟨hlines, hpieces, habove, hback⟩
  have hlineCut := lineCut_of_cutLine hfirst
  have hnone : next.carry.text = [] := by rw [hcarry]; rfl
  have hopen := carry_text_of_silent hlineCut hsilent hnone
  have hstart := hat.past_carry
  rw [hopen, Position.past_nil] at hstart
  obtain ⟨gaps, mark, rfl, hmark⟩ := exists_continuation_of_lineCut hlineCut hcarry
  obtain ⟨rest, rfl⟩ : ∃ rest, mark = '\\' :: rest := by
    simp only [StringLiteral.isContinuation, Bool.or_eq_true, beq_iff_eq] at hmark
    rcases hmark with rfl | rfl
    · exact ⟨_, rfl⟩
    · exact ⟨_, rfl⟩
  have hfeed : '\n' ∉ Piece.cover gaps := by
    have hcover := cutLine_cover hfirst
    rw [hnone, hopen, List.append_nil, List.nil_append, Piece.cover_append] at hcover
    rcases (Text.whole_of_lines hlines).2 with hwhole | ⟨-, hfeed⟩
    · rw [← hcover] at hwhole
      exact Text.not_feed_of_whole hwhole (List.cons_ne_nil _ _)
    · rw [← hcover] at hfeed
      exact fun hmem => hfeed (List.mem_append_left _ hmem)
  rw [List.append_assoc, List.singleton_append] at hpieces
  obtain ⟨q, hq, huncovered, hchar, hline, hbare⟩ := h.exists_bare hpieces
    (fun piece hmem => hsilent piece (List.mem_append_left _ hmem)) hstart hfeed
  have hbrackets : bracketDepth (tokens.filter (·.start.line < q.1.line)) = 0 := by
    rw [hline, hat.depth_eq h hopen, hdepth]
  obtain ⟨r, hr, hsame, hbefore, hcovered⟩ := hjoins q hq huncovered hchar hbrackets
  exact hcovered (hbare r hr (hsame.trans hline) hbefore)

end Accepted

def Token.content (t : Token) : TokenKind × Text := (t.kind, t.value)

/-- Lists that have the same content without comments and line breaks are scrubbed to the same
content. -/
theorem content_scrub {a b : List Token}
    (h : (a.filter fun t => !t.isNoise).map Token.content =
      (b.filter fun t => !t.isNoise).map Token.content) :
    (scrub a).map Token.content = (scrub b).map Token.content := by
  rw [← List.forall₂_eq_eq_eq, List.forall₂_map_left_iff, List.forall₂_map_right_iff] at h ⊢
  exact forall₂_dropSuperseded (fun t u heq => congrArg Prod.fst heq) h

/-- Without comments and line breaks the tokens of pieces have the content of their code. -/
theorem content_place (table : Array Text) (p : Position) (pieces : List Piece) :
    ((Piece.place table p pieces).filter fun t => !t.isNoise).map Token.content =
      Piece.code pieces := by
  induction pieces generalizing p with
  | nil => rfl
  | cons piece rest ih =>
    cases piece with
    | gap text => exact ih _
    | lexeme kind text =>
      have hnoise : (Piece.token table p kind text).isNoise =
          decide (kind = .comment ∨ kind = .lineBreak) := by
        cases kind <;> rfl
      rw [Piece.place_lexeme, List.filter_cons, hnoise, Piece.code, List.filterMap_cons]
      by_cases hdropped : kind = .comment ∨ kind = .lineBreak
      · simp only [hdropped, decide_true, Bool.not_true, Bool.false_eq_true, if_false, if_true]
        exact ih _
      · simp only [hdropped, decide_false, Bool.not_false, if_true, if_false, List.map_cons]
        exact congrArg _ (ih _)

/-- The tokens behind the last line depend on it only by the need for an end of the statement. -/
theorem content_supplied {lines lines' : List Text} (levels : List Nat)
    (h : needsNewline (lines'.getLastD []) = needsNewline (lines.getLastD [])) :
    (suppliedNewline lines' ++ closing lines'.length levels).map Token.content =
      (suppliedNewline lines ++ closing lines.length levels).map Token.content := by
  have hclosing : ∀ n, (closing n levels).map Token.content =
      levels.tail.map (fun _ => (.dedent, [])) ++ [(.endMarker, [])] := by
    intro n
    simp [closing, Token.content]
  have hsupplied : (suppliedNewline lines').map Token.content =
      (suppliedNewline lines).map Token.content := by
    simp only [suppliedNewline, h]
    split <;> rfl
  rw [List.map_append, List.map_append, hclosing, hclosing, hsupplied]

/-- Without comments and line breaks, the content of an accepted source is that of its code and of
the tokens behind its last line. -/
theorem Accepted.content_filter {source : Text} {tokens : List Token} {pieces : List Piece}
    {levels : List Nat} (h : Accepted source tokens pieces levels) :
    (tokens.filter fun t => !t.isNoise).map Token.content =
      Piece.code pieces ++ (suppliedNewline (Text.lines source) ++
        closing (Text.lines source).length levels).map Token.content := by
  have hkept : ∀ t ∈ suppliedNewline (Text.lines source) ++
      closing (Text.lines source).length levels, (!t.isNoise) = true := by
    intro t ht
    have hkind : t.kind ≠ .comment ∧ t.kind ≠ .lineBreak := by
      rcases kind_of_supplied ht with hnewline | hstructural
      · rw [hnewline]
        decide
      · constructor <;> intro hkind <;> rw [hkind] at hstructural <;> cases hstructural
    simp [Token.isNoise, hkind]
  rw [h.tokens_eq, List.append_assoc, List.filter_append, List.map_append, content_place,
    List.filter_eq_self.2 hkept]

theorem Accepted.ending {source : Text} {tokens : List Token} {pieces : List Piece}
    {levels : List Nat} (h : Accepted source tokens pieces levels) :
    Ending (Position.origin.past (Piece.cover pieces))
      (needsNewline ((Text.lines source).getLastD []))
      (suppliedNewline (Text.lines source) ++ closing (Text.lines source).length levels) := by
  have hstart : ∀ t ∈ suppliedNewline (Text.lines source) ++
      closing (Text.lines source).length levels, Position.origin.past source ≤ t.start :=
    fun t ht => Accepted.past_le_of_supplied (List.mem_append.1 ht)
  rw [h.cover]
  cases hneeds : needsNewline ((Text.lines source).getLastD []) with
  | false =>
    have hnone : suppliedNewline (Text.lines source) = [] := by
      rw [suppliedNewline, hneeds]
      rfl
    rw [hnone] at hstart ⊢
    exact ⟨hstart, fun hneeded => absurd hneeded Bool.false_ne_true, fun _ => closing_writesNothing,
      written_of_writesNothing _ closing_writesNothing⟩
  | true =>
    rcases suppliedNewline_cases source with hnone | ⟨t, ht, hends⟩
    · rw [suppliedNewline, hneeds] at hnone
      cases hnone
    · have hwrites : t.writesNothing = false := by
        rw [Token.writesNothing, hends.kind]
        rfl
      rw [ht] at hstart ⊢
      refine ⟨hstart, fun _ => ⟨t, _, rfl, hends.start, hwrites⟩,
        fun hnot => absurd hnot.symm Bool.false_ne_true, ?_⟩
      rw [List.singleton_append, written_cons _ _ hwrites, hends.start, padding_self, hends.value,
        written_of_writesNothing _ closing_writesNothing]
      rfl

/-- If only spaces and continuations stand between the tokens, and each continuation outside
brackets stands behind text on its line, the text of the tokens is accepted, and what scrubbing
leaves of its own tokens has the same kinds and texts. That is enough, though not always needed: a
continuation in front of the first name of a source comes back as an empty line and splits
nothing. -/
theorem tokenize_rebuild {source : Text} {tokens : List Token} (h : tokenize source = .ok tokens)
    (hplain : ∀ q ∈ Text.placed source, Uncovered tokens q.1 →
      q.2 = ' ' ∨ InContinuation source q.1)
    (hjoins : ContinuesText source tokens) :
    ∃ text tokens', rebuild tokens = .ok text ∧ tokenize text = .ok tokens' ∧
      (scrub tokens').map Token.content = (scrub tokens).map Token.content := by
  obtain ⟨pieces, levels, hacc⟩ := exists_accepted h
  have hlines : Text.lines (Text.lines source).flatten = Text.lines source := by
    rw [Text.flatten_lines]
  obtain ⟨lines', hreplays, hwritten⟩ := exists_replayAll (Text.lines source).toArray hacc.cut rfl
    (hacc.plainGaps hplain) (hacc.joined hjoins) hlines (fun _ => ⟨1, rfl⟩) hacc.ending
    (fun _ => rfl)
  obtain ⟨pieces', last, hcut, hstands, hcode⟩ := hreplays.cut _ (Stands.refl _)
  have hrebuild : rebuild tokens = .ok lines'.flatten := by
    rw [rebuild_eq_written hacc, hacc.tokens_eq, List.append_assoc]
    exact congrArg Except.ok hwritten
  obtain rfl : last = { levels := levels } := by
    obtain ⟨levels', depth', carry'⟩ := last
    obtain ⟨hlevels, hdepth, hcarry⟩ := hstands
    rcases hcarry with hcarry | ⟨-, hcarry, -⟩
    · simp only at hlevels hdepth hcarry
      rw [hlevels, hdepth, hcarry]
    · cases hcarry
  have htokens : tokenize lines'.flatten = .ok (Piece.place lines'.toArray .origin pieces' ++
      suppliedNewline lines' ++ closing lines'.length levels) := by
    have hfinish := tokenize_of_cut (hreplays.lines_eq.symm ▸ hcut)
    rw [hfinish, hreplays.lines_eq]
    rfl
  obtain ⟨pieces'', levels', hacc'⟩ := exists_accepted htokens
  have hsame := hacc'.cut
  rw [hreplays.lines_eq, hcut] at hsame
  cases hsame
  refine ⟨lines'.flatten, _, hrebuild, htokens, content_scrub ?_⟩
  rw [hacc'.content_filter, hacc.content_filter, hcode, hreplays.lines_eq,
    content_supplied levels hreplays.needs]

/-- Spaces in front of a continuation and a carriage return are lost, and so is a continuation in
brackets. -/
theorem tokenize_rebuild_in_brackets :
    let source : Text :=
      ['x', ' ', '\\', '\r', '\n', '=', '[', '\\', '\n', ' ', '\\', '\n', '1', ']', '\n']
    let tokens : List Token :=
      [⟨.name, ['x'], ⟨1, 0⟩, ⟨1, 1⟩, some ['x', ' ', '\\', '\r', '\n']⟩,
        ⟨.operator, ['='], ⟨2, 0⟩, ⟨2, 1⟩, some ['=', '[', '\\', '\n']⟩,
        ⟨.operator, ['['], ⟨2, 1⟩, ⟨2, 2⟩, some ['=', '[', '\\', '\n']⟩,
        ⟨.number, ['1'], ⟨4, 0⟩, ⟨4, 1⟩, some ['1', ']', '\n']⟩,
        ⟨.operator, [']'], ⟨4, 1⟩, ⟨4, 2⟩, some ['1', ']', '\n']⟩,
        ⟨.newline, ['\n'], ⟨4, 2⟩, ⟨4, 3⟩, some ['1', ']', '\n']⟩,
        ⟨.endMarker, [], ⟨5, 0⟩, ⟨5, 0⟩, none⟩]
    tokenize source = .ok tokens ∧
      rebuild tokens = .ok ['x', '\\', '\n', '=', '[', '\\', '\n', '\n', '1', ']', '\n'] ∧
      ∃ text tokens', rebuild tokens = .ok text ∧ tokenize text = .ok tokens' ∧
        (scrub tokens').map Token.content = (scrub tokens).map Token.content := by
  intro source tokens
  have htokens : tokenize source = .ok tokens := by rfl
  have hmarks : ∀ q ∈ Text.placed source, Uncovered tokens q.1 → q.2 = ' ' ∨
      (⟨1, 2⟩ ≤ q.1 ∧ q.1 < ⟨2, 0⟩) ∨ (⟨2, 2⟩ ≤ q.1 ∧ q.1 < ⟨3, 0⟩) ∨
        (⟨3, 1⟩ ≤ q.1 ∧ q.1 < ⟨4, 0⟩) := by decide
  have hplain : ∀ q ∈ Text.placed source, Uncovered tokens q.1 →
      q.2 = ' ' ∨ InContinuation source q.1 := by
    intro q hq huncovered
    rcases hmarks q hq huncovered with hspace | ⟨hstart, hstop⟩ | ⟨hstart, hstop⟩ | ⟨hstart, hstop⟩
    · exact Or.inl hspace
    · exact Or.inr ⟨source.take 2, ['\\', '\r', '\n'], source.drop 5, rfl, rfl, hstart, hstop⟩
    · exact Or.inr ⟨source.take 7, ['\\', '\n'], source.drop 9, rfl, rfl, hstart, hstop⟩
    · exact Or.inr ⟨source.take 10, ['\\', '\n'], source.drop 12, rfl, rfl, hstart, hstop⟩
  exact ⟨htokens, by rfl, tokenize_rebuild htokens hplain (by decide)⟩

/-- Outside brackets a continuation without text on its line comes back as a bare line feed, which
splits its statement. -/
theorem exists_split_statement :
    ¬ ∀ source tokens, tokenize source = .ok tokens →
      (∀ q ∈ Text.placed source, Uncovered tokens q.1 →
        q.2 = ' ' ∨ InContinuation source q.1) →
      ∃ text tokens', rebuild tokens = .ok text ∧ tokenize text = .ok tokens' ∧
        (scrub tokens').map Token.content = (scrub tokens).map Token.content := by
  intro h
  let source : Text := ['x', '\\', '\n', '\\', '\n', ' ', 'y', '\n']
  let tokens : List Token :=
    [⟨.name, ['x'], ⟨1, 0⟩, ⟨1, 1⟩, some ['x', '\\', '\n']⟩,
      ⟨.name, ['y'], ⟨3, 1⟩, ⟨3, 2⟩, some [' ', 'y', '\n']⟩,
      ⟨.newline, ['\n'], ⟨3, 2⟩, ⟨3, 3⟩, some [' ', 'y', '\n']⟩,
      ⟨.endMarker, [], ⟨4, 0⟩, ⟨4, 0⟩, none⟩]
  have hmarks : ∀ q ∈ Text.placed source, Uncovered tokens q.1 → q.2 = ' ' ∨
      (⟨1, 1⟩ ≤ q.1 ∧ q.1 < ⟨2, 0⟩) ∨ (⟨2, 0⟩ ≤ q.1 ∧ q.1 < ⟨3, 0⟩) := by decide
  have hplain : ∀ q ∈ Text.placed source, Uncovered tokens q.1 →
      q.2 = ' ' ∨ InContinuation source q.1 := by
    intro q hq huncovered
    rcases hmarks q hq huncovered with hspace | ⟨hstart, hstop⟩ | ⟨hstart, hstop⟩
    · exact Or.inl hspace
    · exact Or.inr ⟨source.take 1, ['\\', '\n'], source.drop 3, rfl, rfl, hstart, hstop⟩
    · exact Or.inr ⟨source.take 3, ['\\', '\n'], source.drop 5, rfl, rfl, hstart, hstop⟩
  obtain ⟨text, tokens', hrebuild, htokens', hscrub⟩ := h source tokens (by rfl) hplain
  have htext : rebuild tokens = .ok ['x', '\\', '\n', '\n', ' ', 'y', '\n'] := by rfl
  rw [htext] at hrebuild
  cases hrebuild
  let third : Option Text := some [' ', 'y', '\n']
  have hsplit : tokenize ['x', '\\', '\n', '\n', ' ', 'y', '\n'] =
      .ok [⟨.name, ['x'], ⟨1, 0⟩, ⟨1, 1⟩, some ['x', '\\', '\n']⟩,
        ⟨.newline, ['\n'], ⟨2, 0⟩, ⟨2, 1⟩, some ['\n']⟩, ⟨.indent, [' '], ⟨3, 0⟩, ⟨3, 1⟩, third⟩,
        ⟨.name, ['y'], ⟨3, 1⟩, ⟨3, 2⟩, third⟩, ⟨.newline, ['\n'], ⟨3, 2⟩, ⟨3, 3⟩, third⟩,
        ⟨.dedent, [], ⟨4, 0⟩, ⟨4, 0⟩, none⟩, ⟨.endMarker, [], ⟨4, 0⟩, ⟨4, 0⟩, none⟩] := by rfl
  rw [hsplit] at htokens'
  cases htokens'
  revert hscrub
  decide

end SourceTokens
