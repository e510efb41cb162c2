import SourceTokens.Proofs.Cuts

/-!
The shapes of the pieces that cutting leaves. Between tokens there are only blanks and
continuations, a marker covers no text, and a lexeme without text has text behind it or stands
directly behind a comment. A run of lines is shaped like this with respect to the text that it
leaves open.
-/

namespace SourceTokens

namespace Piece

variable {a b pieces : List Piece} {text : Text}

def WellShaped : Piece → Prop
  | .gap text => text.all Text.isBlank ∨ StringLiteral.isContinuation text
  | .lexeme kind text => kind.isStructural → text = []

/-- Each lexeme without text has text behind it, in the pieces or after them, or it stands behind a
comment on the same line. -/
def Anchored (pieces : List Piece) (text : Text) : Prop :=
  ∀ before kind after, pieces = before ++ .lexeme kind [] :: after →
    cover after ++ text ≠ [] ∨
      ∃ front comment c, before = front ++ [.lexeme .comment (comment ++ [c])] ∧ c ≠ '\n'

structure Shaped (pieces : List Piece) (text : Text) : Prop where
  each : ∀ piece ∈ pieces, piece.WellShaped
  anchored : Anchored pieces text

theorem wellShaped_lexeme {kind : TokenKind} {text : Text} (h : kind.isStructural = false) :
    (Piece.lexeme kind text).WellShaped := by
  intro hkind
  rw [h] at hkind
  cases hkind

theorem anchored_of_ne_nil (h : ∀ kind, .lexeme kind [] ∉ pieces) : Anchored pieces text := by
  rintro before kind after rfl
  exact absurd (List.mem_append_right before (List.mem_cons_self ..)) (h kind)

theorem anchored_before (h : text ≠ []) : Anchored pieces text := by
  intro before kind after _
  exact Or.inl (List.append_ne_nil_of_right_ne_nil _ h)

theorem Anchored.extend (h : Anchored pieces text) (later : Text) :
    Anchored pieces (text ++ later) := by
  intro before kind after hpieces
  rcases h before kind after hpieces with hbehind | hcomment
  · rw [← List.append_assoc]
    exact Or.inl (List.append_ne_nil_of_left_ne_nil hbehind later)
  · exact Or.inr hcomment

theorem anchored_append (ha : Anchored a (cover b ++ text)) (hb : Anchored b text) :
    Anchored (a ++ b) text := by
  intro before kind after h
  rcases List.append_eq_append_iff.1 h with ⟨middle, hbefore, hb'⟩ | ⟨middle, ha', hafter⟩
  · rcases hb middle kind after hb' with hbehind | ⟨front, comment, c, hfront, hc⟩
    · exact Or.inl hbehind
    · refine Or.inr ⟨a ++ front, comment, c, ?_, hc⟩
      rw [hbefore, hfront, List.append_assoc]
  · cases middle with
    | nil =>
      have hfirst : b = [] ++ .lexeme kind [] :: after := hafter.symm
      rcases hb [] kind after hfirst with hbehind | ⟨front, comment, c, hfront, -⟩
      · exact Or.inl hbehind
      · simp at hfront
    | cons piece middle =>
      obtain ⟨rfl, htail⟩ := List.cons.inj hafter
      have hcover : cover after = cover middle ++ cover b := by
        rw [htail]
        exact cover_append middle b
      rw [hcover, List.append_assoc]
      exact ha before kind middle ha'

theorem shaped_nil : Shaped [] text := ⟨by simp, anchored_of_ne_nil (by simp)⟩

theorem Shaped.extend (h : Shaped pieces text) (later : Text) : Shaped pieces (text ++ later) :=
  ⟨h.each, h.anchored.extend later⟩

theorem shaped_append (ha : Shaped a (cover b ++ text)) (hb : Shaped b text) :
    Shaped (a ++ b) text :=
  ⟨List.forall_mem_append.2 ⟨ha.each, hb.each⟩, anchored_append ha.anchored hb.anchored⟩

/-- A single lexeme of an ordinary kind that covers text. -/
theorem shaped_lexeme {kind : TokenKind} {covered : Text} (h : kind.isStructural = false)
    (hne : covered ≠ []) : Shaped [.lexeme kind covered] text := by
  constructor
  · intro piece hmem
    rw [List.mem_singleton.1 hmem]
    exact wellShaped_lexeme h
  · apply anchored_of_ne_nil
    intro other hmem
    simp [hne.symm] at hmem

end Piece

namespace LineScan

def Front.WellShaped (text : Text) : Front → Prop
  | .piece p _ => p.WellShaped
  | .continuation => StringLiteral.isContinuation text
  | .unclosed _ => True

theorem frontOfWord_wellShaped (c : Char) (rest : Text) :
    (frontOfWord c rest).WellShaped (c :: rest) := by
  unfold frontOfWord
  split
  · exact Piece.wellShaped_lexeme rfl
  · split
    · exact Piece.wellShaped_lexeme rfl
    · unfold frontOfSymbol
      split <;> exact Piece.wellShaped_lexeme rfl

theorem frontOfLiteral_wellShaped (c : Char) (rest : Text) :
    (frontOfLiteral c rest).WellShaped (c :: rest) := by
  unfold frontOfLiteral
  simp only
  split
  · split
    · exact Piece.wellShaped_lexeme rfl
    · trivial
    · exact frontOfWord_wellShaped c rest
  · exact Piece.wellShaped_lexeme rfl

theorem lineBreakKind_not_structural (depth : Nat) :
    (lineBreakKind depth).isStructural = false := by
  unfold lineBreakKind
  split <;> rfl

theorem front_wellShaped (depth : Nat) (c : Char) (rest : Text) :
    (front depth c rest).WellShaped (c :: rest) := by
  unfold front
  split
  · exact Or.inl (List.all_takeWhile)
  · split
    · split
      · assumption
      · exact Piece.wellShaped_lexeme rfl
    · split
      · exact Piece.wellShaped_lexeme (lineBreakKind_not_structural depth)
      · split
        · exact Piece.wellShaped_lexeme (lineBreakKind_not_structural depth)
        · split
          · exact Piece.wellShaped_lexeme rfl
          · exact frontOfLiteral_wellShaped c rest

/-- What holds of each piece at a front holds of all pieces of the rest of a line. -/
theorem pieces_of_scan {P : Piece → Prop}
    (hpiece : ∀ depth c rest piece after, front depth c rest = .piece piece after → P piece)
    (hgap : ∀ depth c rest, front depth c rest = .continuation → P (.gap (c :: rest)))
    (depth : Nat) (text : Text) : ∀ piece ∈ (scan depth text).pieces, P piece := by
  unfold scan
  generalize text.length = limit
  induction limit generalizing depth text with
  | zero => simp [scanUpTo]
  | succ limit ih =>
    cases text with
    | nil => simp [scanUpTo]
    | cons c rest =>
      intro piece hmem
      unfold scanUpTo at hmem
      split at hmem
      · rename_i first after hfront
        rcases List.mem_cons.1 hmem with rfl | hmem
        · exact hpiece _ _ _ _ _ hfront
        · exact ih _ _ _ hmem
      · rename_i hfront
        rw [List.mem_singleton.1 hmem]
        exact hgap _ _ _ hfront
      · cases hmem

theorem scan_wellShaped (depth : Nat) (text : Text) :
    ∀ piece ∈ (scan depth text).pieces, piece.WellShaped := by
  apply pieces_of_scan
  · intro depth c rest piece after hfront
    have h := front_wellShaped depth c rest
    rwa [hfront] at h
  · intro depth c rest hfront
    have h := front_wellShaped depth c rest
    rw [hfront] at h
    exact Or.inr h

theorem scan_ne_nil (depth : Nat) (text : Text) :
    ∀ piece ∈ (scan depth text).pieces, piece.text ≠ [] := by
  apply pieces_of_scan
  · intro depth c rest piece after hfront
    have h := front_covers depth c rest
    rw [hfront] at h
    exact h.2
  · intro depth c rest _
    exact List.cons_ne_nil c rest

theorem scan_shaped (depth : Nat) (text later : Text) :
    Piece.Shaped (scan depth text).pieces later := by
  refine ⟨scan_wellShaped depth text, Piece.anchored_of_ne_nil ?_⟩
  intro kind hmem
  exact scan_ne_nil depth text _ hmem rfl

end LineScan

namespace Indentation

/-- A comment line is cut in front of the breaks at its end. -/
theorem exists_dropBreaks (rest : Text) :
    ∃ comment c, Text.dropBreaks ('#' :: rest) = comment ++ [c] ∧ c ≠ '\n' := by
  unfold Text.dropBreaks
  cases hdrop : ('#' :: rest).reverse.dropWhile Text.isBreak with
  | nil =>
    have hall := List.dropWhile_eq_nil_iff.1 hdrop '#' (by simp)
    exact absurd hall (by decide)
  | cons c front =>
    refine ⟨front.reverse, c, by simp, ?_⟩
    rintro rfl
    have hhead := List.head?_dropWhile_not Text.isBreak ('#' :: rest).reverse
    rw [hdrop] at hhead
    cases hhead

theorem shaped_gap {blanks text : Text} (h : blanks.all Text.isBlank) :
    Piece.Shaped [.gap blanks] text := by
  constructor
  · intro piece hmem
    rw [List.mem_singleton.1 hmem]
    exact Or.inl h
  · exact Piece.anchored_of_ne_nil (by simp)

theorem shaped_dedents (levels : List Nat) {text : Text} (h : text ≠ []) :
    Piece.Shaped (levels.map fun _ => .lexeme .dedent []) text := by
  refine ⟨?_, Piece.anchored_before h⟩
  intro piece hmem
  obtain ⟨_, -, rfl⟩ := List.mem_map.1 hmem
  exact fun _ => rfl

/-- The break behind a comment may be missing at the end of the source. -/
theorem shaped_comment (comment last text : Text) {c : Char} (hc : c ≠ '\n') :
    Piece.Shaped [.lexeme .comment (comment ++ [c]), .lexeme .lineBreak last] text := by
  constructor
  · intro piece hmem
    simp only [List.mem_cons, List.not_mem_nil, or_false] at hmem
    rcases hmem with rfl | rfl
    · exact Piece.wellShaped_lexeme rfl
    · exact Piece.wellShaped_lexeme rfl
  · intro before kind after h
    rcases before with _ | ⟨first, _ | ⟨second, before⟩⟩
    · simp at h
    · obtain ⟨rfl, -⟩ := List.cons.inj h
      exact Or.inr ⟨[], comment, c, rfl, hc⟩
    · simp at h

theorem noCode_shaped {levels : List Nat} {line text : Text} {pieces : List Piece}
    (h : LineStart levels line (.noCode pieces)) : Piece.Shaped pieces text := by
  cases h with
  | blank hline => exact shaped_gap hline
  | comment blanks rest hblanks hline =>
    obtain ⟨comment, c, hcomment, hc⟩ := exists_dropBreaks rest
    have hshaped := shaped_comment comment (('#' :: rest).drop (comment ++ [c]).length) text hc
    rw [hcomment]
    exact Piece.shaped_append (shaped_gap hblanks) hshaped
  | lineBreak blanks c rest hblanks hline hc =>
    exact Piece.shaped_append (shaped_gap hblanks)
      (Piece.shaped_lexeme rfl (List.cons_ne_nil c rest))

theorem code_shaped {levels next : List Nat} {line rest : Text} {pieces : List Piece}
    (h : LineStart levels line (.code pieces next rest)) : Piece.Shaped pieces rest := by
  cases h with
  | opens blanks c rest hblanks hline hc hwidth =>
    have hne : blanks ≠ [] := by
      rintro rfl
      exact Nat.not_lt_zero _ hwidth
    exact Piece.shaped_lexeme rfl hne
  | closes blanks c rest hblanks hline hc hwidth hopen =>
    exact Piece.shaped_append (shaped_gap hblanks) (shaped_dedents _ (List.cons_ne_nil c rest))
  | stays blanks c rest hblanks hline hc hwidth => exact shaped_gap hblanks

end Indentation

namespace Segmentation

open LineScan StringLiteral

theorem splitAtCloser_ne_nil {d : Delimiter} {line body rest : Text}
    (h : splitAtCloser d line = some (body, rest)) : body ≠ [] := by
  have hd : d.text ≠ [] := by
    unfold Delimiter.text
    split <;> simp
  unfold splitAtCloser at h
  split at h
  · cases h
  · obtain ⟨_, -, heq⟩ := Option.map_eq_some_iff.1 h
    cases heq
    simp
  · split at h
    · cases h
      exact hd
    · obtain ⟨_, -, heq⟩ := Option.map_eq_some_iff.1 h
      cases heq
      simp

/-- The pieces of one line, in front of what the line leaves open. -/
theorem lineCut_shaped {s next : State} {line : Text} {pieces : List Piece} (hline : line ≠ [])
    (h : LineCut s line pieces next) : Piece.Shaped pieces next.carry.text := by
  cases h with
  | closes d text body rest hcarry hsplit =>
    have hbody : text ++ body ≠ [] :=
      List.append_ne_nil_of_right_ne_nil text (splitAtCloser_ne_nil hsplit)
    exact Piece.shaped_append (Piece.shaped_lexeme rfl hbody) (scan_shaped _ _ _)
  | givesUp d text hcarry hsplit hsingle hend =>
    exact Piece.shaped_lexeme rfl (List.append_ne_nil_of_right_ne_nil text hline)
  | staysOpen d text hcarry hsplit hgoes => exact Piece.shaped_nil
  | noCode pieces hcarry hdepth hstart => exact Indentation.noCode_shaped hstart
  | code before levels rest hcarry hdepth hstart =>
    have hbefore := Indentation.code_shaped hstart
    rw [← scan_cover s.depth rest] at hbefore
    exact Piece.shaped_append hbefore (scan_shaped _ _ _)
  | within hcarry => exact scan_shaped _ _ _

/-- The pieces of a run of lines, in front of what the run leaves open. -/
theorem cutLines_shaped {s last : State} {lines : List Text} {pieces : List Piece}
    (hlines : ∀ line ∈ lines, line ≠ []) (h : cutLines s lines = .ok (pieces, last)) :
    Piece.Shaped pieces last.carry.text := by
  induction lines generalizing s pieces with
  | nil =>
    cases h
    exact Piece.shaped_nil
  | cons line later ih =>
    obtain ⟨hline, hlater⟩ := List.forall_mem_cons.1 hlines
    obtain ⟨first, next, more, rfl, hfirst, hmore⟩ := exists_lineCut_of_cutLines h
    -- What the first line leaves open is the beginning of what the later lines cover.
    have hcover := cutLines_cover hmore
    have hshaped := (lineCut_shaped hline hfirst).extend later.flatten
    rw [← hcover] at hshaped
    exact Piece.shaped_append hshaped (ih hlater hmore)

end Segmentation

end SourceTokens
