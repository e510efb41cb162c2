import SourceTokens.Proofs.Rebuilding

/-!
Sources that come back from their tokens. Where only blanks stand between the tokens, the text
written for the tokens is the source with spaces for those blanks, up to the last token that has
text or ends a statement. Blanks behind it are lost. They are there only when the last line has no
terminator and reads as a comment without being one, so that no end of a statement is supplied.
-/

namespace SourceTokens

open Rebuild

/-- Whether a place lies behind every token but the markers. -/
def Trailing (tokens : List Token) (p : Position) : Prop :=
  ∀ t ∈ tokens, t.kind.isStructural = false → t.stop ≤ p

instance (tokens : List Token) (p : Position) : Decidable (Trailing tokens p) :=
  inferInstanceAs (Decidable (∀ t ∈ tokens, _ → _))

/-- A space for a tab or a form feed that lies in no token; any other character stays. -/
def respace (tokens : List Token) (q : Position × Char) : Char :=
  if Uncovered tokens q.1 ∧ (q.2 = '\t' ∨ q.2 = '\x0c') then ' ' else q.2

def respaced (tokens : List Token) (source : Text) : Text :=
  (Text.placed source).map (respace tokens)

def silent : Piece → Bool
  | .gap _ => true
  | .lexeme kind text => kind.isStructural && text.isEmpty

theorem text_of_silent {kind : TokenKind} {text : Text} (h : silent (.lexeme kind text)) :
    text = [] :=
  List.isEmpty_iff.1 (Bool.and_eq_true_iff.1 h).2

/-- Either no piece writes text, or there is a last lexeme that does. -/
theorem silent_or_exists_last (pieces : List Piece) :
    (∀ piece ∈ pieces, silent piece) ∨
      ∃ front kind text back, pieces = front ++ .lexeme kind text :: back ∧
        silent (.lexeme kind text) = false ∧ ∀ piece ∈ back, silent piece := by
  induction pieces with
  | nil => exact Or.inl (by simp)
  | cons piece rest ih =>
    rcases ih with hrest | ⟨front, kind, text, back, rfl, hwrites, hback⟩
    · cases hpiece : silent piece with
      | true => exact Or.inl (List.forall_mem_cons.2 ⟨hpiece, hrest⟩)
      | false =>
        cases piece with
        | gap text => cases hpiece
        | lexeme kind text => exact Or.inr ⟨[], kind, text, rest, rfl, hpiece, hrest⟩
    · exact Or.inr ⟨piece :: front, kind, text, back, rfl, hwrites, hback⟩

/-- If each piece is spaced by its characters one by one, so is the whole cover. -/
theorem map_placedFrom_cover {f : Position × Char → Char} {p : Position} {pieces : List Piece}
    (h : ∀ before piece after, pieces = before ++ piece :: after →
      (Text.placedFrom (p.past (Piece.cover before)) piece.text).map f = spaced piece) :
    (Text.placedFrom p (Piece.cover pieces)).map f = pieces.flatMap spaced := by
  induction pieces generalizing p with
  | nil => rfl
  | cons piece rest ih =>
    have hrest := ih (p := p.past piece.text) fun before other after hsplit => by
      have hother := h (piece :: before) other after (by rw [hsplit, List.cons_append])
      rwa [Piece.cover_cons, Position.past_append] at hother
    rw [Piece.cover_cons, Text.placedFrom_append, List.map_append, hrest, List.flatMap_cons]
    congr 1
    exact h [] piece rest rfl

theorem silent_token {lines : Array Text} {p : Position} {pieces : List Piece} {t : Token}
    (hsilent : ∀ piece ∈ pieces, silent piece) (h : t ∈ Piece.place lines p pieces) :
    t.writesNothing := by
  obtain ⟨before, kind, text, after, rfl, rfl⟩ := Piece.exists_lexeme_of_mem_place h
  exact hsilent (.lexeme kind text) (by simp)

theorem structural_of_silent {lines : Array Text} {p : Position} {pieces : List Piece} {t : Token}
    (hsilent : ∀ piece ∈ pieces, silent piece) (h : t ∈ Piece.place lines p pieces) :
    t.kind.isStructural := by
  have hnothing := silent_token hsilent h
  unfold Token.writesNothing at hnothing
  exact (Bool.and_eq_true_iff.1 hnothing).1

/-- Text whose characters in no token are spaces stays as it is. -/
theorem map_respace_of_spaces {tokens : List Token} {p : Position} {text : Text}
    (h : ∀ q ∈ Text.placedFrom p text, Uncovered tokens q.1 → q.2 = ' ') :
    (Text.placedFrom p text).map (respace tokens) = text := by
  calc
    _ = (Text.placedFrom p text).map Prod.snd := by
      apply List.map_congr_left
      intro q hq
      rw [respace]
      split
      · rename_i hspace
        exact (h q hq hspace.1).symm
      · rfl
    _ = text := Text.map_snd_placedFrom p text

/-- A source in two parts. The first one comes back, with spaces for its gaps; the second one lies
in no token and behind all text. -/
structure Kept (source : Text) (tokens : List Token) (kept lost : Text) : Prop where
  source_eq : source = kept ++ lost
  rebuild_eq : rebuild tokens = .ok ((Text.placedFrom .origin kept).map (respace tokens))
  shown : ∀ q ∈ Text.placedFrom .origin kept, ¬ Trailing tokens q.1
  behind : ∀ q ∈ Text.placedFrom (Position.origin.past kept) lost,
    Uncovered tokens q.1 ∧ Trailing tokens q.1

namespace Kept

variable {source : Text} {tokens : List Token} {kept lost : Text}

theorem placed_eq (h : Kept source tokens kept lost) : Text.placed source =
    Text.placedFrom .origin kept ++ Text.placedFrom (Position.origin.past kept) lost := by
  rw [Text.placed_eq_placedFrom, h.source_eq, Text.placedFrom_append]

/-- Where text is lost, some of the source lies behind all text. -/
theorem exists_behind (h : Kept source tokens kept lost) (hne : lost ≠ []) :
    ∃ q ∈ Text.placed source, Uncovered tokens q.1 ∧ Trailing tokens q.1 := by
  obtain ⟨c, rest, rfl⟩ := List.exists_cons_of_ne_nil hne
  refine ⟨(Position.origin.past kept, c), ?_, h.behind _ (List.mem_cons_self ..)⟩
  rw [h.source_eq]
  exact Text.mem_placed_append_cons kept c rest

/-- Nothing is lost exactly if no gap lies behind all text. -/
theorem lost_eq_nil_iff (h : Kept source tokens kept lost) :
    lost = [] ↔ ∀ q ∈ Text.placed source, Uncovered tokens q.1 → ¬ Trailing tokens q.1 := by
  constructor
  · rintro rfl q hq -
    rw [h.placed_eq, Text.placedFrom, List.append_nil] at hq
    exact h.shown q hq
  · intro hend
    by_contra hne
    obtain ⟨q, hq, huncovered, htrailing⟩ := h.exists_behind hne
    exact hend q hq huncovered htrailing

theorem rebuild_of_spaces (h : Kept source tokens kept lost)
    (hspaces : ∀ q ∈ Text.placed source, Uncovered tokens q.1 → q.2 = ' ') :
    rebuild tokens = .ok kept := by
  rw [h.placed_eq] at hspaces
  rw [h.rebuild_eq, map_respace_of_spaces fun q hq => hspaces q (List.mem_append_left _ hq)]

theorem lost_spaces (h : Kept source tokens kept lost)
    (hspaces : ∀ q ∈ Text.placed source, Uncovered tokens q.1 → q.2 = ' ') :
    ∀ c ∈ lost, c = ' ' := by
  intro c hc
  rw [← Text.map_snd_placedFrom (Position.origin.past kept) lost] at hc
  obtain ⟨q, hq, rfl⟩ := List.mem_map.1 hc
  rw [h.placed_eq] at hspaces
  exact hspaces q (List.mem_append_right _ hq) (h.behind q hq).1

end Kept

namespace Accepted

variable {source : Text} {tokens : List Token} {pieces : List Piece} {levels : List Nat}

theorem closing_writesNothing {lineCount : Nat} :
    ∀ t ∈ closing lineCount levels, t.writesNothing := by
  intro t ht
  obtain ⟨hkind, hvalue, -⟩ := mem_closing ht
  simp [Token.writesNothing, hkind, hvalue]

/-- The characters of a gap stand in the source, and in no token. -/
theorem exists_uncovered_of_gap (h : Accepted source tokens pieces levels) {text : Text}
    (hmem : .gap text ∈ pieces) {c : Char} (hc : c ∈ text) :
    ∃ q ∈ Text.placed source, Uncovered tokens q.1 ∧ q.2 = c := by
  obtain ⟨before, after, hpieces⟩ := List.append_of_mem hmem
  rw [← Text.map_snd_placedFrom (Position.origin.past (Piece.cover before)) text] at hc
  obtain ⟨q, hq, rfl⟩ := List.mem_map.1 hc
  refine ⟨q, ?_, h.uncovered_of_gap hpieces hq, rfl⟩
  rw [Text.placed_eq_placedFrom, h.source_eq hpieces, Text.placedFrom_append,
    Text.placedFrom_append]
  exact List.mem_append_left _ (List.mem_append_right _ hq)

/-- The characters of a gap are blanks when all characters in no token are. -/
theorem isBlank_of_gap (h : Accepted source tokens pieces levels)
    (hblank : ∀ q ∈ Text.placed source, Uncovered tokens q.1 → Text.isBlank q.2) {text : Text}
    (hmem : .gap text ∈ pieces) : ∀ c ∈ text, Text.isBlank c := by
  intro c hc
  obtain ⟨q, hq, huncovered, rfl⟩ := h.exists_uncovered_of_gap hmem hc
  exact hblank q hq huncovered

theorem no_feed_of_gap (h : Accepted source tokens pieces levels)
    (hblank : ∀ q ∈ Text.placed source, Uncovered tokens q.1 → Text.isBlank q.2) :
    ∀ text, .gap text ∈ pieces → '\n' ∉ text :=
  fun _ hmem hfeed => absurd (h.isBlank_of_gap hblank hmem _ hfeed) (by decide)

/-- With a supplied end of the statement everything before it is written. -/
theorem rebuild_of_supplied (h : Accepted source tokens pieces levels)
    (hblank : ∀ q ∈ Text.placed source, Uncovered tokens q.1 → Text.isBlank q.2) {t : Token}
    (ht : suppliedNewline (Text.lines source) = [t]) (hends : EndsStatement source t) :
    rebuild tokens = .ok (pieces.flatMap spaced) := by
  have hwrites : t.writesNothing = false := by
    rw [Token.writesNothing, hends.kind]
    rfl
  have hwritten := written_place (Text.lines source).toArray .origin
    (closing (Text.lines source).length levels) (h.no_feed_of_gap hblank) hwrites
    (by rw [hends.start, h.cover])
  rw [written_of_writesNothing _ closing_writesNothing, hends.value, List.append_nil,
    List.append_nil] at hwritten
  rw [rebuild_eq_written h, h.tokens_eq, ht, List.append_assoc, List.singleton_append, hwritten]

/-- With a supplied end of the statement nothing of the source lies behind all text. -/
theorem not_trailing_of_supplied (h : Accepted source tokens pieces levels) {t : Token}
    (ht : suppliedNewline (Text.lines source) = [t]) (hends : EndsStatement source t)
    {q : Position × Char} (hq : q ∈ Text.placedFrom .origin source) : ¬ Trailing tokens q.1 := by
  intro htrailing
  have hmem : t ∈ tokens := by simp [h.tokens_eq, ht]
  have hkind : t.kind.isStructural = false := by
    rw [hends.kind]
    rfl
  have hlt : q.1 < t.start := by
    rw [hends.start]
    exact (Text.bounds_of_mem_placedFrom hq).2.trans_le (Position.stop_le_past _ _)
  exact not_le.2 hlt ((h.start_le_stop hmem).trans (htrailing t hmem hkind))

/-- Without one, the text ends with the last lexeme that writes text. -/
theorem rebuild_of_last (h : Accepted source tokens pieces levels)
    (hblank : ∀ q ∈ Text.placed source, Uncovered tokens q.1 → Text.isBlank q.2)
    (hnone : suppliedNewline (Text.lines source) = []) {front back : List Piece} {kind : TokenKind}
    {text : Text} (hpieces : pieces = front ++ .lexeme kind text :: back)
    (hwrites : silent (.lexeme kind text) = false) (hback : ∀ piece ∈ back, silent piece) :
    rebuild tokens = .ok ((front ++ [Piece.lexeme kind text]).flatMap spaced) := by
  have hgaps : ∀ text, Piece.gap text ∈ front → '\n' ∉ text := fun text htext =>
    h.no_feed_of_gap hblank text (by rw [hpieces]; exact List.mem_append_left _ htext)
  let table := (Text.lines source).toArray
  have hwritten := written_place table .origin
    (t := Piece.token table (Position.origin.past (Piece.cover front)) kind text)
    (Piece.place (Text.lines source).toArray
      ((Position.origin.past (Piece.cover front)).past text) back ++
        closing (Text.lines source).length levels) hgaps hwrites rfl
  rw [written_of_writesNothing _ (List.forall_mem_append.2
    ⟨fun _ => silent_token hback, closing_writesNothing⟩), List.append_nil] at hwritten
  rw [rebuild_eq_written h, h.tokens_eq, hnone, hpieces, List.append_nil, Piece.place_append,
    Piece.place_lexeme, List.append_assoc, List.cons_append, hwritten, List.flatMap_append,
    List.flatMap_singleton]
  rfl

/-- Without any such lexeme nothing is written. -/
theorem rebuild_of_silent (h : Accepted source tokens pieces levels)
    (hnone : suppliedNewline (Text.lines source) = []) (hsilent : ∀ piece ∈ pieces, silent piece) :
    rebuild tokens = .ok [] := by
  rw [rebuild_eq_written h, h.tokens_eq, hnone, List.append_nil]
  exact congrArg Except.ok (written_of_writesNothing _ (List.forall_mem_append.2
    ⟨fun _ => silent_token hsilent, closing_writesNothing⟩))

/-- What pieces that write nothing cover at the end of the source lies behind all text. -/
theorem trailing_of_silent (h : Accepted source tokens pieces levels)
    (hnone : suppliedNewline (Text.lines source) = []) {shown back : List Piece}
    (hpieces : pieces = shown ++ back) (hback : ∀ piece ∈ back, silent piece)
    {q : Position × Char}
    (hq : q ∈ Text.placedFrom (Position.origin.past (Piece.cover shown)) (Piece.cover back)) :
    Uncovered tokens q.1 ∧ Trailing tokens q.1 := by
  constructor
  · obtain ⟨before, piece, after, rfl, hplaced⟩ := Piece.exists_piece_of_mem_placedFrom hq
    rw [← Position.past_append, ← Piece.cover_append] at hplaced
    rw [← List.append_assoc] at hpieces
    cases piece with
    | gap text => exact h.uncovered_of_gap hpieces hplaced
    | lexeme kind text =>
      rw [Piece.text, text_of_silent (hback (.lexeme kind text) (by simp))] at hplaced
      cases hplaced
  · intro t ht hkind
    rcases h.mem_cases ht with ht | ht | ht
    · rw [hpieces, Piece.place_append] at ht
      rcases List.mem_append.1 ht with ht | ht
      · exact ((Piece.stop_le_of_mem_place ht).trans (Piece.past_le_of_mem_place ht)).trans
          (Text.bounds_of_mem_placedFrom hq).1
      · rw [structural_of_silent hback ht] at hkind
        cases hkind
    · rw [hnone] at ht
      cases ht
    · rw [(mem_closing ht).1] at hkind
      cases hkind

/-- What stands before the end of a token with text, or of a statement, does not lie behind all
text. -/
theorem not_trailing (h : Accepted source tokens pieces levels) {front back : List Piece}
    {kind : TokenKind} {text : Text} (hpieces : pieces = front ++ .lexeme kind text :: back)
    (hwrites : silent (.lexeme kind text) = false) {q : Position × Char}
    (hq : q ∈ Text.placedFrom .origin (Piece.cover (front ++ [.lexeme kind text]))) :
    ¬ Trailing tokens q.1 := by
  have hkind : kind.isStructural = false := by
    have hshape := h.shaped.each (.lexeme kind text) (by simp [hpieces])
    cases hstructural : kind.isStructural with
    | false => rfl
    | true => simp [silent, hstructural, hshape hstructural] at hwrites
  intro htrailing
  have hstop := htrailing _ (h.token_mem hpieces) hkind
  rw [Piece.cover_append, Text.placedFrom_append] at hq
  rcases List.mem_append.1 hq with hq | hq
  · have hlt := (Text.bounds_of_mem_placedFrom hq).2.trans_le (Position.stop_le_past _ _)
    exact not_le.2 (hlt.trans_le (Position.le_stop _ text)) hstop
  · rw [Piece.cover_singleton] at hq
    exact not_le.2 (Text.bounds_of_mem_placedFrom hq).2 hstop

/-- The pieces of an accepted source fall into those that come back, with gaps as spaces, and a rest
that lies behind all text. -/
theorem exists_shown (h : Accepted source tokens pieces levels)
    (hblank : ∀ q ∈ Text.placed source, Uncovered tokens q.1 → Text.isBlank q.2) :
    ∃ shown back, pieces = shown ++ back ∧ rebuild tokens = .ok (shown.flatMap spaced) ∧
      (∀ q ∈ Text.placedFrom .origin (Piece.cover shown), ¬ Trailing tokens q.1) ∧
      ∀ q ∈ Text.placedFrom (Position.origin.past (Piece.cover shown)) (Piece.cover back),
        Uncovered tokens q.1 ∧ Trailing tokens q.1 := by
  have hempty : ∀ p, Text.placedFrom p (Piece.cover []) = [] := fun _ => rfl
  rcases suppliedNewline_cases source with hnone | ⟨t, ht, hends⟩
  · rcases silent_or_exists_last pieces with hsilent | ⟨front, kind, text, back, hpieces, hlast⟩
    · exact ⟨[], pieces, rfl, h.rebuild_of_silent hnone hsilent, by simp [hempty],
        fun q => h.trailing_of_silent hnone rfl hsilent⟩
    · obtain ⟨hwrites, hback⟩ := hlast
      have hsplit : pieces = (front ++ [.lexeme kind text]) ++ back := by
        rw [hpieces, List.append_assoc, List.singleton_append]
      exact ⟨_, back, hsplit, h.rebuild_of_last hblank hnone hpieces hwrites hback,
        fun q => h.not_trailing hpieces hwrites, fun q => h.trailing_of_silent hnone hsplit hback⟩
  · refine ⟨pieces, [], (List.append_nil _).symm, h.rebuild_of_supplied hblank ht hends, ?_,
      by simp [hempty]⟩
    rw [h.cover]
    exact fun q => h.not_trailing_of_supplied ht hends

/-- In a gap every character becomes a space. -/
theorem respace_of_gap (h : Accepted source tokens pieces levels)
    (hblank : ∀ q ∈ Text.placed source, Uncovered tokens q.1 → Text.isBlank q.2)
    {before after : List Piece} {text : Text} (hpieces : pieces = before ++ .gap text :: after)
    {q : Position × Char}
    (hq : q ∈ Text.placedFrom (Position.origin.past (Piece.cover before)) text) :
    respace tokens q = ' ' := by
  have huncovered := h.uncovered_of_gap hpieces hq
  have hchar := List.mem_map_of_mem (f := Prod.snd) hq
  rw [Text.map_snd_placedFrom] at hchar
  have hspace := h.isBlank_of_gap hblank (by simp [hpieces]) _ hchar
  simp only [Text.isBlank, Bool.or_eq_true, beq_iff_eq] at hspace
  rw [respace]
  split
  · rfl
  · rename_i hother
    rcases hspace with (hspace | htab) | hform
    · exact hspace
    · exact absurd ⟨huncovered, Or.inl htab⟩ hother
    · exact absurd ⟨huncovered, Or.inr hform⟩ hother

/-- In a lexeme every character stays. -/
theorem respace_of_lexeme (h : Accepted source tokens pieces levels) {before after : List Piece}
    {kind : TokenKind} {text : Text} (hpieces : pieces = before ++ .lexeme kind text :: after)
    {q : Position × Char}
    (hq : q ∈ Text.placedFrom (Position.origin.past (Piece.cover before)) text) :
    respace tokens q = q.2 := by
  have hmem := h.token_mem hpieces
  rw [respace, if_neg]
  exact fun hspace => hspace.1 _ hmem (Text.bounds_of_mem_placedFrom hq)

/-- Of the pieces that come back, the gaps come back as spaces. -/
theorem map_respace (h : Accepted source tokens pieces levels)
    (hblank : ∀ q ∈ Text.placed source, Uncovered tokens q.1 → Text.isBlank q.2)
    {shown back : List Piece} (hpieces : pieces = shown ++ back) :
    (Text.placedFrom .origin (Piece.cover shown)).map (respace tokens) = shown.flatMap spaced := by
  apply map_placedFrom_cover
  intro before piece after hshown
  rw [hshown, List.append_assoc, List.cons_append] at hpieces
  cases piece with
  | gap text =>
    calc
      _ = (Text.placedFrom (Position.origin.past (Piece.cover before)) text).map fun _ => ' ' :=
        List.map_congr_left fun q hq => h.respace_of_gap hblank hpieces hq
      _ = List.replicate text.length ' ' := by rw [List.map_const', Text.length_placedFrom]
  | lexeme kind text =>
    calc
      _ = (Text.placedFrom (Position.origin.past (Piece.cover before)) text).map Prod.snd :=
        List.map_congr_left fun q hq => h.respace_of_lexeme hpieces hq
      _ = text := Text.map_snd_placedFrom _ _

/-- An accepted source falls into a part that comes back and one behind all text. -/
theorem exists_kept (h : Accepted source tokens pieces levels)
    (hblank : ∀ q ∈ Text.placed source, Uncovered tokens q.1 → Text.isBlank q.2) :
    ∃ kept lost, Kept source tokens kept lost := by
  obtain ⟨shown, back, hpieces, hrebuild, hshown, hback⟩ := h.exists_shown hblank
  refine ⟨Piece.cover shown, Piece.cover back, ?_, ?_, hshown, hback⟩
  · rw [← h.cover, hpieces, Piece.cover_append]
  · rw [hrebuild, h.map_respace hblank hpieces]

/-- Below a last line with text behind all tokens no end of a statement is supplied, because the
line reads as a comment. -/
theorem head_trim_of_trailing (h : Accepted source tokens pieces levels) {q : Position × Char}
    (hq : q ∈ Text.placed source) (htrailing : Trailing tokens q.1)
    (hlast : source.getLast? = some ' ') :
    (Unicode.trim ((Text.lines source).getLastD [])).head? = some '#' := by
  have hline := Text.getLast?_getLastD_lines source
  rw [hlast] at hline
  have hne : (Text.lines source).getLastD [] ≠ [] := by
    intro hnil
    rw [hnil] at hline
    cases hline
  cases hneeds : needsNewline ((Text.lines source).getLastD []) with
  | true =>
    exfalso
    rw [Text.placed_eq_placedFrom] at hq
    rcases suppliedNewline_cases source with hnone | ⟨t, ht, hends⟩
    · rw [suppliedNewline, if_pos hneeds] at hnone
      cases hnone
    · exact h.not_trailing_of_supplied ht hends hq htrailing
  | false =>
    rw [needsNewline, hline, List.isEmpty_eq_false_iff.2 hne] at hneeds
    simpa [Text.isBreak] using hneeds

end Accepted

/-- Where only blanks stand between the tokens and none of them behind all text, the source comes
back with a space for each of these blanks, and exactly if they are spaces already. -/
theorem rebuild_of_blank_gaps {source : Text} {tokens : List Token}
    (h : tokenize source = .ok tokens)
    (hblank : ∀ q ∈ Text.placed source, Uncovered tokens q.1 → Text.isBlank q.2)
    (hend : ∀ q ∈ Text.placed source, Uncovered tokens q.1 → ¬ Trailing tokens q.1) :
    rebuild tokens = .ok (respaced tokens source) ∧
      ((∀ q ∈ Text.placed source, Uncovered tokens q.1 → q.2 = ' ') →
        rebuild tokens = .ok source) := by
  obtain ⟨pieces, levels, hacc⟩ := exists_accepted h
  obtain ⟨kept, lost, hkept⟩ := hacc.exists_kept hblank
  have hsource : source = kept := by
    have heq := hkept.source_eq
    rwa [hkept.lost_eq_nil_iff.2 hend, List.append_nil] at heq
  subst hsource
  constructor
  · rw [hkept.rebuild_eq, respaced, Text.placed_eq_placedFrom]
  · exact hkept.rebuild_of_spaces

/-- A tab and a form feed come back as spaces, an indent as it is, and so does the space that a
supplied end of the statement stands behind. -/
theorem rebuild_of_tab_and_form_feed :
    let source : Text := ['i', 'f', '\t', 'x', ':', '\n', '\t', 'y', '\x0c', '"', '"', '"', '\n',
      '"', '"', '"', ' ']
    let line : Option Text := some ['i', 'f', '\t', 'x', ':', '\n']
    let deeper : Option Text := some ['\t', 'y', '\x0c', '"', '"', '"', '\n']
    let tokens : List Token :=
      [⟨.name, ['i', 'f'], ⟨1, 0⟩, ⟨1, 2⟩, line⟩, ⟨.name, ['x'], ⟨1, 3⟩, ⟨1, 4⟩, line⟩,
        ⟨.operator, [':'], ⟨1, 4⟩, ⟨1, 5⟩, line⟩, ⟨.newline, ['\n'], ⟨1, 5⟩, ⟨1, 6⟩, line⟩,
        ⟨.indent, ['\t'], ⟨2, 0⟩, ⟨2, 1⟩, deeper⟩, ⟨.name, ['y'], ⟨2, 1⟩, ⟨2, 2⟩, deeper⟩,
        ⟨.string, ['"', '"', '"', '\n', '"', '"', '"'], ⟨2, 3⟩, ⟨3, 3⟩, deeper⟩,
        ⟨.newline, [], ⟨3, 4⟩, ⟨3, 5⟩, none⟩, ⟨.dedent, [], ⟨4, 0⟩, ⟨4, 0⟩, none⟩,
        ⟨.endMarker, [], ⟨4, 0⟩, ⟨4, 0⟩, none⟩]
    tokenize source = .ok tokens ∧ rebuild tokens = .ok (respaced tokens source) ∧
      respaced tokens source = ['i', 'f', ' ', 'x', ':', '\n', '\t', 'y', ' ', '"', '"', '"', '\n',
        '"', '"', '"', ' '] := by
  intro source line deeper tokens
  have htokens : tokenize source = .ok tokens := by rfl
  have hblank : ∀ q ∈ Text.placed source, Uncovered tokens q.1 → Text.isBlank q.2 := by decide
  have hend : ∀ q ∈ Text.placed source, Uncovered tokens q.1 → ¬ Trailing tokens q.1 := by decide
  exact ⟨htokens, (rebuild_of_blank_gaps htokens hblank hend).1, by decide⟩

/-- Where only spaces stand between the tokens, what comes back is the source without the spaces
behind all text, so it is the source exactly if there are none. A source that has some ends in a
line that reads as a comment. -/
theorem rebuild_eq_source_iff {source : Text} {tokens : List Token}
    (h : tokenize source = .ok tokens)
    (hspaces : ∀ q ∈ Text.placed source, Uncovered tokens q.1 → q.2 = ' ') :
    (rebuild tokens = .ok source ↔
      ∀ q ∈ Text.placed source, Uncovered tokens q.1 → ¬ Trailing tokens q.1) ∧
      (rebuild tokens ≠ .ok source →
        (Unicode.trim ((Text.lines source).getLastD [])).head? = some '#') ∧
      ∃ kept lost, source = kept ++ lost ∧ rebuild tokens = .ok kept ∧ ∀ c ∈ lost, c = ' ' := by
  obtain ⟨pieces, levels, hacc⟩ := exists_accepted h
  have hblank : ∀ q ∈ Text.placed source, Uncovered tokens q.1 → Text.isBlank q.2 := by
    intro q hq huncovered
    rw [hspaces q hq huncovered]
    rfl
  obtain ⟨kept, lost, hkept⟩ := hacc.exists_kept hblank
  have hrebuild := hkept.rebuild_of_spaces hspaces
  have hlost := hkept.lost_spaces hspaces
  have hiff : rebuild tokens = .ok source ↔ lost = [] := by
    rw [hrebuild, Except.ok.injEq, hkept.source_eq]
    exact List.self_eq_append_right
  refine ⟨hiff.trans hkept.lost_eq_nil_iff, ?_, kept, lost, hkept.source_eq, hrebuild, hlost⟩
  rw [Ne, hiff]
  intro hne
  obtain ⟨q, hq, -, htrailing⟩ := hkept.exists_behind hne
  apply hacc.head_trim_of_trailing hq htrailing
  rw [hkept.source_eq, List.getLast?_append_of_ne_nil _ hne, List.getLast?_eq_some_getLast hne,
    hlost _ (List.getLast_mem hne)]

/-- Spaces behind a string that ends in a line like a comment come back if more text follows. -/
theorem rebuild_of_spaces_before_name :
    let source : Text := ['"', '"', '"', '\n', '#', '"', '"', '"', ' ', ' ', 'x']
    let tokens : List Token :=
      [⟨.string, ['"', '"', '"', '\n', '#', '"', '"', '"'], ⟨1, 0⟩, ⟨2, 4⟩,
          some ['"', '"', '"', '\n']⟩,
        ⟨.name, ['x'], ⟨2, 6⟩, ⟨2, 7⟩, some ['#', '"', '"', '"', ' ', ' ', 'x']⟩,
        ⟨.endMarker, [], ⟨3, 0⟩, ⟨3, 0⟩, none⟩]
    tokenize source = .ok tokens ∧ rebuild tokens = .ok source := by
  intro source tokens
  have htokens : tokenize source = .ok tokens := by rfl
  have hspaces : ∀ q ∈ Text.placed source, Uncovered tokens q.1 → q.2 = ' ' := by decide
  exact ⟨htokens, (rebuild_eq_source_iff htokens hspaces).1.2 (by decide)⟩

/-- Spaces behind such a string at the end of the source are lost. -/
theorem exists_lost_spaces :
    ¬ ∀ source tokens, tokenize source = .ok tokens →
      (∀ q ∈ Text.placed source, Uncovered tokens q.1 → q.2 = ' ') →
        rebuild tokens = .ok source := by
  intro h
  have hlost := h ['"', '"', '"', '\n', '#', '"', '"', '"', ' ', ' ']
    [⟨.string, ['"', '"', '"', '\n', '#', '"', '"', '"'], ⟨1, 0⟩, ⟨2, 4⟩,
        some ['"', '"', '"', '\n']⟩, ⟨.endMarker, [], ⟨3, 0⟩, ⟨3, 0⟩, none⟩]
    (by rfl) (by decide)
  revert hlost
  decide

end SourceTokens
