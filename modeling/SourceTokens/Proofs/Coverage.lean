import SourceTokens.Proofs.Accepted

/-!
Where the tokens of an accepted source stand. Each token is the text of a piece, or it is one of the
tokens supplied behind the last line. Tokens follow each other without overlap, each text is the
part of the source between its two places, and a character in no token is a blank or belongs to a
continuation.
-/

namespace SourceTokens

namespace Token

def Spans (t : Token) (p : Position) : Prop := t.start ≤ p ∧ p < t.stop

instance (t : Token) (p : Position) : Decidable (t.Spans p) :=
  inferInstanceAs (Decidable (_ ∧ _))

def Precedes (a b : Token) : Prop := a.start.past a.value ≤ b.start ∧ a.stop ≤ b.start

end Token

/-- Whether a place lies in no token. -/
def Uncovered (tokens : List Token) (p : Position) : Prop := ∀ t ∈ tokens, ¬ t.Spans p

instance (tokens : List Token) (p : Position) : Decidable (Uncovered tokens p) :=
  inferInstanceAs (Decidable (∀ t ∈ tokens, _))

/-- Whether a place lies in a backslash or in the line terminator directly behind it. -/
def InContinuation (source : Text) (p : Position) : Prop :=
  ∃ before mark after, source = before ++ mark ++ after ∧ StringLiteral.isContinuation mark ∧
    Position.origin.past before ≤ p ∧ p < Position.origin.past (before ++ mark)

namespace Piece

variable {lines : Array Text} {p : Position} {pieces : List Piece}

def token (lines : Array Text) (p : Position) (kind : TokenKind) (text : Text) : Token :=
  { kind := kind, value := text, start := p, stop := p.stop text, line := lines[p.line - 1]? }

theorem cover_singleton (piece : Piece) : cover [piece] = piece.text :=
  List.append_nil piece.text

theorem place_lexeme (lines : Array Text) (p : Position) (kind : TokenKind) (text : Text)
    (later : List Piece) : place lines p (.lexeme kind text :: later) =
      token lines p kind text :: place lines (p.past text) later := rfl

theorem mem_place_append_cons (before : List Piece) (kind : TokenKind) (text : Text)
    (after : List Piece) :
    token lines (p.past (cover before)) kind text ∈
      place lines p (before ++ .lexeme kind text :: after) := by
  rw [place_append]
  exact List.mem_append_right _ (List.mem_cons_self ..)

/-- Every placed token is that of a lexeme, at the place behind the pieces before it. -/
theorem exists_lexeme_of_mem_place {t : Token} (h : t ∈ place lines p pieces) :
    ∃ before kind text after, pieces = before ++ .lexeme kind text :: after ∧
      t = token lines (p.past (cover before)) kind text := by
  induction pieces generalizing p with
  | nil => cases h
  | cons piece rest ih =>
    cases piece with
    | gap blanks =>
      obtain ⟨before, kind, text, after, rfl, rfl⟩ := ih h
      refine ⟨.gap blanks :: before, kind, text, after, rfl, ?_⟩
      rw [cover_cons, Position.past_append]
      rfl
    | lexeme kind text =>
      rcases List.mem_cons.1 h with rfl | h
      · exact ⟨[], kind, text, rest, rfl, rfl⟩
      · obtain ⟨before, kind', text', after, rfl, rfl⟩ := ih h
        refine ⟨.lexeme kind text :: before, kind', text', after, rfl, ?_⟩
        rw [cover_cons, Position.past_append]
        rfl

/-- Every character of the cover belongs to a piece. -/
theorem exists_piece_of_mem_placedFrom {q : Position × Char}
    (h : q ∈ Text.placedFrom p (cover pieces)) :
    ∃ before piece after, pieces = before ++ piece :: after ∧
      q ∈ Text.placedFrom (p.past (cover before)) piece.text := by
  induction pieces generalizing p with
  | nil => cases h
  | cons piece rest ih =>
    rw [cover_cons, Text.placedFrom_append] at h
    rcases List.mem_append.1 h with h | h
    · exact ⟨[], piece, rest, rfl, h⟩
    · obtain ⟨before, other, after, rfl, hother⟩ := ih h
      refine ⟨piece :: before, other, after, rfl, ?_⟩
      rwa [cover_cons, Position.past_append]

theorem start_le_of_mem_place {t : Token} (h : t ∈ place lines p pieces) : p ≤ t.start := by
  obtain ⟨before, kind, text, after, rfl, rfl⟩ := exists_lexeme_of_mem_place h
  exact Position.le_past p (cover before)

theorem stop_le_of_mem_place {t : Token} (h : t ∈ place lines p pieces) :
    t.stop ≤ t.start.past t.value := by
  obtain ⟨before, kind, text, after, rfl, rfl⟩ := exists_lexeme_of_mem_place h
  exact Position.stop_le_past _ text

theorem start_le_stop_of_mem_place {t : Token} (h : t ∈ place lines p pieces) :
    t.start ≤ t.stop := by
  obtain ⟨before, kind, text, after, rfl, rfl⟩ := exists_lexeme_of_mem_place h
  exact Position.le_stop _ text

theorem past_le_of_mem_place {t : Token} (h : t ∈ place lines p pieces) :
    t.start.past t.value ≤ p.past (cover pieces) := by
  obtain ⟨before, kind, text, after, rfl, rfl⟩ := exists_lexeme_of_mem_place h
  rw [cover_append, cover_cons, Position.past_append, Position.past_append]
  exact Position.le_past _ (cover after)

theorem place_pairwise (lines : Array Text) (p : Position) (pieces : List Piece) :
    (place lines p pieces).Pairwise Token.Precedes := by
  induction pieces generalizing p with
  | nil => exact List.Pairwise.nil
  | cons piece rest ih =>
    cases piece with
    | gap blanks => exact ih _
    | lexeme kind text =>
      refine List.pairwise_cons.2 ⟨?_, ih _⟩
      intro t ht
      have hstart := start_le_of_mem_place ht
      exact ⟨hstart, (Position.stop_le_past p text).trans hstart⟩

end Piece

theorem mem_closing {lineCount : Nat} {levels : List Nat} {t : Token}
    (h : t ∈ closing lineCount levels) :
    t.kind.isStructural ∧ t.value = [] ∧ t.start = ⟨lineCount + 1, 0⟩ ∧ t.stop = t.start := by
  unfold closing at h
  rcases List.mem_append.1 h with h | h
  · obtain ⟨_, -, rfl⟩ := List.mem_map.1 h
    exact ⟨rfl, rfl, rfl, rfl⟩
  · rw [List.mem_singleton.1 h]
    exact ⟨rfl, rfl, rfl, rfl⟩

/-- A token that ends the statement on a last line without a terminator. It stands where the source
ends and stops one column behind it. -/
structure EndsStatement (source : Text) (t : Token) : Prop where
  needs : needsNewline ((Text.lines source).getLastD [])
  kind : t.kind = .newline
  value : t.value = []
  start : t.start = Position.origin.past source
  line : t.start.line = (Text.lines source).length
  stop : t.stop = ⟨t.start.line, t.start.col + 1⟩

theorem endsStatement_of_supplied {source : Text} {t : Token}
    (h : t ∈ suppliedNewline (Text.lines source)) : EndsStatement source t := by
  unfold suppliedNewline at h
  simp only at h
  split at h
  · rename_i hneeds
    have hlast := Text.getLast?_getLastD_lines source
    have hparts := hneeds
    simp only [needsNewline, Bool.and_eq_true, hlast] at hparts
    have hne : source ≠ [] := by
      rintro rfl
      simp [Text.lines] at hparts
    have hopen : source.getLast? ≠ some '\n' := by
      intro hfeed
      rw [hfeed] at hparts
      simp [Text.isBreak] at hparts
    have hpast := Text.past_origin_of_open hne hopen
    rw [List.mem_singleton.1 h]
    exact ⟨hneeds, rfl, rfl, hpast.symm, rfl, rfl⟩
  · cases h

theorem suppliedNewline_cases (source : Text) :
    suppliedNewline (Text.lines source) = [] ∨
      ∃ t, suppliedNewline (Text.lines source) = [t] ∧ EndsStatement source t := by
  cases hsupplied : suppliedNewline (Text.lines source) with
  | nil => exact Or.inl rfl
  | cons t rest =>
    have hends : EndsStatement source t := by
      apply endsStatement_of_supplied
      rw [hsupplied]
      exact List.mem_cons_self ..
    rw [suppliedNewline, if_pos hends.needs] at hsupplied
    obtain ⟨-, rfl⟩ := List.cons.inj hsupplied
    exact Or.inr ⟨t, rfl, hends⟩

/-- A source ends at the latest where the line below its last one starts. -/
theorem past_origin_le (source : Text) :
    Position.origin.past source ≤ ⟨(Text.lines source).length + 1, 0⟩ := by
  by_cases hclosed : source = [] ∨ source.getLast? = some '\n'
  · exact (Text.past_origin_of_feed hclosed).le
  · rw [not_or] at hclosed
    rw [Text.past_origin_of_open hclosed.1 hclosed.2]
    exact Or.inl (Nat.lt_succ_self _)

namespace Accepted

variable {source : Text} {tokens : List Token} {pieces : List Piece} {levels : List Nat}

theorem mem_cases (h : Accepted source tokens pieces levels) {t : Token} (ht : t ∈ tokens) :
    t ∈ Piece.place (Text.lines source).toArray .origin pieces ∨
      t ∈ suppliedNewline (Text.lines source) ∨
        t ∈ closing (Text.lines source).length levels := by
  rw [h.tokens_eq] at ht
  rcases List.mem_append.1 ht with ht | ht
  · rcases List.mem_append.1 ht with ht | ht
    · exact Or.inl ht
    · exact Or.inr (Or.inl ht)
  · exact Or.inr (Or.inr ht)

/-- The tokens behind the last line start where the source ends, or below. -/
theorem past_le_of_supplied {t : Token}
    (ht : t ∈ suppliedNewline (Text.lines source) ∨
      t ∈ closing (Text.lines source).length levels) : Position.origin.past source ≤ t.start := by
  rcases ht with ht | ht
  · exact (endsStatement_of_supplied ht).start.ge
  · obtain ⟨-, -, hstart, -⟩ := mem_closing ht
    rw [hstart]
    exact past_origin_le source

theorem start_le_stop (h : Accepted source tokens pieces levels) {t : Token} (ht : t ∈ tokens) :
    t.start ≤ t.stop := by
  rcases h.mem_cases ht with ht | ht | ht
  · exact Piece.start_le_stop_of_mem_place ht
  · rw [(endsStatement_of_supplied ht).stop]
    exact Or.inr ⟨rfl, Nat.le_succ _⟩
  · exact (mem_closing ht).2.2.2.ge

/-- Each token precedes all tokens after it. -/
theorem pairwise (h : Accepted source tokens pieces levels) :
    tokens.Pairwise Token.Precedes := by
  have hbelow : ∀ a ∈ suppliedNewline (Text.lines source),
      ∀ b ∈ closing (Text.lines source).length levels, a.Precedes b := by
    intro a ha b hb
    have hends := endsStatement_of_supplied ha
    obtain ⟨-, -, hb, -⟩ := mem_closing hb
    constructor
    · rw [hends.value, Position.past_nil, hends.start, hb]
      exact past_origin_le source
    · rw [hends.stop, hends.line, hb]
      exact Or.inl (Nat.lt_succ_self _)
  rw [h.tokens_eq, List.append_assoc]
  refine List.pairwise_append.2 ⟨Piece.place_pairwise _ _ _, ?_, ?_⟩
  · refine List.pairwise_append.2 ⟨?_, ?_, hbelow⟩
    · rcases suppliedNewline_cases source with hnone | ⟨t, ht, -⟩
      · rw [hnone]
        exact List.Pairwise.nil
      · rw [ht]
        exact List.pairwise_singleton _ t
    · refine List.pairwise_of_forall_mem_list ?_
      intro a ha b hb
      obtain ⟨-, hvalue, ha, hstop⟩ := mem_closing ha
      obtain ⟨-, -, hb, -⟩ := mem_closing hb
      rw [Token.Precedes, hvalue, hstop, ha, hb, Position.past_nil]
      exact ⟨le_refl _, le_refl _⟩
  · intro a ha b hb
    have hpast := Piece.past_le_of_mem_place ha
    rw [h.cover] at hpast
    have hb := hpast.trans (past_le_of_supplied (List.mem_append.1 hb))
    exact ⟨hb, (Piece.stop_le_of_mem_place ha).trans hb⟩

/-- Every lexeme of an accepted source has its token. -/
theorem token_mem (h : Accepted source tokens pieces levels) {before after : List Piece}
    {kind : TokenKind} {text : Text} (hpieces : pieces = before ++ .lexeme kind text :: after) :
    Piece.token (Text.lines source).toArray (Position.origin.past (Piece.cover before)) kind text ∈
      tokens := by
  rw [h.tokens_eq, List.append_assoc, hpieces]
  exact List.mem_append_left _ (Piece.mem_place_append_cons before kind text after)

/-- The pieces around a piece of an accepted source cover what stands around its text. -/
theorem source_eq (h : Accepted source tokens pieces levels) {before after : List Piece}
    {piece : Piece} (hpieces : pieces = before ++ piece :: after) :
    source = Piece.cover before ++ piece.text ++ Piece.cover after := by
  rw [← h.cover, hpieces, Piece.cover_append, Piece.cover_cons, List.append_assoc]

/-- Each lexeme starts on a physical line, at its first character when it has one. -/
theorem hasPlace_start (h : Accepted source tokens pieces levels) {before after : List Piece}
    {kind : TokenKind} {text : Text} (hpieces : pieces = before ++ .lexeme kind text :: after) :
    Text.HasPlace source (Position.origin.past (Piece.cover before)) := by
  have hsource := h.source_eq hpieces
  have hplace : ∀ c rest, source = Piece.cover before ++ c :: rest →
      Text.HasPlace source (Position.origin.past (Piece.cover before)) := by
    rintro c rest rfl
    exact (Text.hasPlace_around (Piece.cover before) c rest).1
  cases text with
  | cons c rest => exact hplace c (rest ++ Piece.cover after) (by simpa [Piece.text] using hsource)
  | nil =>
    rcases h.shaped.anchored before kind after hpieces with hbehind | ⟨front, comment, c, rfl, hc⟩
    · rw [List.append_nil] at hbehind
      obtain ⟨c, rest, hafter⟩ := List.exists_cons_of_ne_nil hbehind
      exact hplace c rest (by simpa [Piece.text, hafter] using hsource)
    · have hcover : Piece.cover (front ++ [.lexeme .comment (comment ++ [c])]) =
          Piece.cover front ++ comment ++ [c] := by
        rw [Piece.cover_append, List.append_assoc]
        simp [Piece.cover, Piece.text]
      have hbehind := (Text.hasPlace_around (Piece.cover front ++ comment) c (Piece.cover after)).2
      rw [← Position.past_eq_stop _ hc, ← Position.past_append, ← hcover] at hbehind
      rw [hsource, hcover]
      rw [hcover] at hbehind
      simpa [Piece.text] using hbehind

/-- What a token records of its text and its places is true of the source. -/
theorem token_of_lexeme (h : Accepted source tokens pieces levels) {t : Token}
    (ht : t ∈ Piece.place (Text.lines source).toArray .origin pieces) :
    t.value = Text.between source t.start t.stop ∧
      Text.HasPlace source t.start ∧ Text.HasPlace source t.stop ∧
      (∀ c ∈ t.value.head?, (t.start, c) ∈ Text.placed source) ∧
      t.line = Text.physicalLine? source t.start.line := by
  obtain ⟨before, kind, text, after, hpieces, rfl⟩ := Piece.exists_lexeme_of_mem_place ht
  have hsource := h.source_eq hpieces
  have hstart := h.hasPlace_start hpieces
  refine ⟨?_, hstart, Text.hasPlace_stop hsource hstart, ?_, ?_⟩
  · rw [hsource]
    exact (Text.between_append _ _ _).symm
  · intro c hc
    obtain ⟨rest, rfl⟩ := List.head?_eq_some_iff.1 hc
    have hplaced := Text.mem_placed_append_cons (Piece.cover before) c (rest ++ Piece.cover after)
    have heq : source = Piece.cover before ++ c :: (rest ++ Piece.cover after) := by
      rw [hsource]
      simp only [Piece.text, List.append_assoc, List.cons_append]
    rwa [← heq] at hplaced
  · obtain ⟨line, hline, -⟩ := hstart
    change (Text.lines source).toArray[(Position.origin.past (Piece.cover before)).line - 1]? = _
    cases hnumber : (Position.origin.past (Piece.cover before)).line with
    | zero =>
      rw [hnumber] at hline
      cases hline
    | succ n => simp [Piece.token, hnumber, Text.physicalLine?]

/-- A character in no token belongs to a gap between them. -/
theorem exists_gap_of_uncovered (h : Accepted source tokens pieces levels) {q : Position × Char}
    (hq : q ∈ Text.placed source) (huncovered : Uncovered tokens q.1) :
    ∃ before text after, pieces = before ++ .gap text :: after ∧
      q ∈ Text.placedFrom (Position.origin.past (Piece.cover before)) text := by
  rw [Text.placed_eq_placedFrom, ← h.cover] at hq
  obtain ⟨before, piece, after, hpieces, hq⟩ := Piece.exists_piece_of_mem_placedFrom hq
  cases piece with
  | gap text => exact ⟨before, text, after, hpieces, hq⟩
  | lexeme kind text =>
    exact absurd (Text.bounds_of_mem_placedFrom hq) (huncovered _ (h.token_mem hpieces))

/-- No character of a gap lies in a token. -/
theorem uncovered_of_gap (h : Accepted source tokens pieces levels) {before after : List Piece}
    {text : Text} (hpieces : pieces = before ++ .gap text :: after) {q : Position × Char}
    (hq : q ∈ Text.placedFrom (Position.origin.past (Piece.cover before)) text) :
    Uncovered tokens q.1 := by
  obtain ⟨hstart, hstop⟩ := Text.bounds_of_mem_placedFrom hq
  have hend := hstop.trans_le (Position.stop_le_past _ text)
  rw [← Position.past_append] at hend
  intro t ht hspans
  rcases h.mem_cases ht with ht | ht
  · rw [hpieces, Piece.place_append] at ht
    rcases List.mem_append.1 ht with ht | ht
    · have hle := (Piece.stop_le_of_mem_place ht).trans (Piece.past_le_of_mem_place ht)
      exact not_le.2 hspans.2 (hle.trans hstart)
    · have hafter : t ∈ Piece.place _ _ after := ht
      have hle := Piece.start_le_of_mem_place hafter
      rw [← Position.past_append] at hle
      exact not_le.2 hend (hle.trans hspans.1)
  · have hle := (past_le_of_supplied ht).trans hspans.1
    rw [h.source_eq hpieces, Position.past_append] at hle
    exact not_le.2 hend ((Position.le_past _ _).trans hle)

end Accepted

/-- Tokens that hold a source, each at its own place. A supplied end of a statement and a marker
have no text, so that they are not looked for in the source. -/
structure Holds (tokens : List Token) (source : Text) : Prop where
  /-- The text of a token is the part of the source between its two places, and its line is the
  physical line on which it starts. -/
  text : ∀ t ∈ tokens, t.kind.isStructural = false → ¬ (t.kind = .newline ∧ t.value = []) →
    t.value = Text.between source t.start t.stop ∧
      Text.HasPlace source t.start ∧ Text.HasPlace source t.stop ∧
      (∀ c ∈ t.value.head?, (t.start, c) ∈ Text.placed source) ∧
      t.line = Text.physicalLine? source t.start.line
  /-- No token stops before it starts. -/
  start_le_stop : ∀ t ∈ tokens, t.start ≤ t.stop
  /-- No token starts before an earlier one stops. -/
  ordered : tokens.Pairwise fun a b => a.stop ≤ b.start
  /-- What lies in no token is a blank or belongs to a continuation. -/
  rest : ∀ q ∈ Text.placed source, Uncovered tokens q.1 →
    Text.isBlank q.2 ∨ InContinuation source q.1

/-- Nothing is lost, invented or misplaced. -/
theorem tokenize_holds {source : Text} {tokens : List Token} (h : tokenize source = .ok tokens) :
    Holds tokens source := by
  obtain ⟨pieces, levels, hacc⟩ := exists_accepted h
  refine ⟨?_, fun t => hacc.start_le_stop, hacc.pairwise.imp fun hab => hab.2, ?_⟩
  · intro t ht hkind hnewline
    rcases hacc.mem_cases ht with ht | ht | ht
    · exact hacc.token_of_lexeme ht
    · have hends := endsStatement_of_supplied ht
      exact absurd ⟨hends.kind, hends.value⟩ hnewline
    · rw [(mem_closing ht).1] at hkind
      cases hkind
  · intro q hq huncovered
    obtain ⟨before, text, after, hpieces, hmem⟩ := hacc.exists_gap_of_uncovered hq huncovered
    rcases hacc.shaped.each (.gap text) (by simp [hpieces]) with hblank | hmark
    · left
      have hchar := List.mem_map_of_mem (f := Prod.snd) hmem
      rw [Text.map_snd_placedFrom] at hchar
      exact List.all_eq_true.1 hblank _ hchar
    · right
      obtain ⟨hstart, hstop⟩ := Text.bounds_of_mem_placedFrom hmem
      have hsource := hacc.source_eq hpieces
      refine ⟨Piece.cover before, text, Piece.cover after, hsource, hmark, hstart, ?_⟩
      rw [Position.past_append]
      exact hstop.trans_le (Position.stop_le_past _ text)

/-- A continuation, a string over two lines and a supplied end of the statement. -/
theorem tokenize_holds_of_continued_string :
    let source : Text := ['x', '=', '\\', '\n', ' ', '"', '"', '"', '\n', '"', '"', '"']
    let tokens : List Token :=
      [⟨.name, ['x'], ⟨1, 0⟩, ⟨1, 1⟩, some ['x', '=', '\\', '\n']⟩,
        ⟨.operator, ['='], ⟨1, 1⟩, ⟨1, 2⟩, some ['x', '=', '\\', '\n']⟩,
        ⟨.string, ['"', '"', '"', '\n', '"', '"', '"'], ⟨2, 1⟩, ⟨3, 3⟩,
          some [' ', '"', '"', '"', '\n']⟩,
        ⟨.newline, [], ⟨3, 3⟩, ⟨3, 4⟩, none⟩, ⟨.endMarker, [], ⟨4, 0⟩, ⟨4, 0⟩, none⟩]
    tokenize source = .ok tokens ∧ Holds tokens source :=
  ⟨by rfl, tokenize_holds (by rfl)⟩

end SourceTokens
