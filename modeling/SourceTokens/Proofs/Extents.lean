import SourceTokens.Proofs.Coverage

/-!
How far the places of a source reach. A character moves a place by one line or by one column, so
neither the line nor the column of a token or of an error is greater than the number of characters
and one more.
-/

namespace SourceTokens

namespace Position

def Within (n : Nat) (p : Position) : Prop := p.line ≤ n ∧ p.col ≤ n

theorem past_le (p : Position) (text : Text) :
    (p.past text).line ≤ p.line + text.length ∧ (p.past text).col ≤ p.col + text.length := by
  induction text generalizing p with
  | nil => exact ⟨Nat.le_refl _, Nat.le_refl _⟩
  | cons c rest ih =>
    have hstep : (p.step c).line ≤ p.line + 1 ∧ (p.step c).col ≤ p.col + 1 := by
      unfold step
      split <;> simp
    have hrest := ih (p.step c)
    rw [past_cons, List.length_cons]
    omega

theorem stop_le (p : Position) (text : Text) :
    (p.stop text).line ≤ p.line + text.length ∧ (p.stop text).col ≤ p.col + text.length := by
  rcases List.eq_nil_or_concat text with rfl | ⟨front, c, rfl⟩
  · exact ⟨Nat.le_refl _, Nat.le_refl _⟩
  · have hfront := past_le p front
    rw [List.concat_eq_append, stop_concat, List.length_append, List.length_singleton]
    constructor <;> simp only <;> omega

theorem within_past_origin {text : Text} {n : Nat} (h : text.length ≤ n) :
    (origin.past text).Within (n + 1) := by
  obtain ⟨hline, hcol⟩ := past_le origin text
  change _ ≤ 1 + text.length at hline
  change _ ≤ 0 + text.length at hcol
  constructor <;> omega

theorem within_stop_origin {before text : Text} {n : Nat} (h : before.length + text.length ≤ n) :
    ((origin.past before).stop text).Within (n + 1) := by
  obtain ⟨hline, hcol⟩ := past_le origin before
  change _ ≤ 1 + before.length at hline
  change _ ≤ 0 + before.length at hcol
  have hstop := stop_le (origin.past before) text
  constructor <;> omega

end Position

theorem Text.length_lines_le (source : Text) : (Text.lines source).length ≤ source.length := by
  induction source with
  | nil => exact Nat.le_refl 0
  | cons c rest ih =>
    unfold Text.lines
    split
    · exact Nat.succ_le_succ ih
    · split
      · exact Nat.succ_le_succ (Nat.zero_le _)
      · rename_i heq
        rw [heq] at ih
        exact Nat.le_succ_of_le ih

theorem Text.length_le_of_mem_lines {source line : Text} (h : line ∈ Text.lines source) :
    line.length ≤ source.length := by
  have hsublist := List.sublist_flatten_of_mem h
  rw [Text.flatten_lines] at hsublist
  exact hsublist.length_le

theorem Text.length_getLastD_lines_le (source : Text) :
    ((Text.lines source).getLastD []).length ≤ source.length := by
  rcases List.eq_nil_or_concat (Text.lines source) with hnil | ⟨above, line, hconcat⟩
  · rw [hnil]
    exact Nat.zero_le _
  · rw [List.concat_eq_append] at hconcat
    rw [hconcat, List.getLastD_concat]
    exact Text.length_le_of_mem_lines (by simp [hconcat])

namespace Segmentation

/-- An error of a run lies on one of its lines. -/
theorem within_of_cutLines {s : State} {lines : List Text} {p : Position}
    (h : cutLines s lines = .error p) :
    p.line ≤ lines.length ∧ ∃ line ∈ lines, p.col ≤ line.length := by
  induction lines generalizing s p with
  | nil => cases h
  | cons line later ih =>
    unfold cutLines at h
    split at h
    · rename_i column hline
      cases h
      refine ⟨Nat.succ_le_succ (Nat.zero_le _), line, List.mem_cons_self, ?_⟩
      obtain ⟨-, -, hstart⟩ := cutLine_eq_error_iff.1 hline
      cases hstart with
      | misfit blanks c rest _ hblanks _ _ _ =>
        rw [hblanks, List.length_append]
        exact Nat.le_add_right _ _
    · split at h
      · rename_i q hlater
        cases h
        obtain ⟨hline, other, hmem, hcol⟩ := ih hlater
        exact ⟨Nat.succ_le_succ hline, other, List.mem_cons_of_mem _ hmem, hcol⟩
      · cases h

end Segmentation

theorem Accepted.within {source : Text} {tokens : List Token} {pieces : List Piece}
    {levels : List Nat} (h : Accepted source tokens pieces levels) {t : Token} (ht : t ∈ tokens) :
    t.start.Within (source.length + 1) ∧ t.stop.Within (source.length + 1) := by
  rcases h.mem_cases ht with ht | ht | ht
  · obtain ⟨before, kind, text, after, hpieces, rfl⟩ := Piece.exists_lexeme_of_mem_place ht
    have hlength := congrArg List.length h.cover
    rw [hpieces, Piece.cover_append, Piece.cover_cons, List.length_append,
      List.length_append] at hlength
    change _ + (text.length + _) = _ at hlength
    exact ⟨Position.within_past_origin (by omega), Position.within_stop_origin (by omega)⟩
  · have hends := endsStatement_of_supplied ht
    obtain ⟨hline, hcol⟩ := Position.past_le .origin source
    change _ ≤ 1 + source.length at hline
    change _ ≤ 0 + source.length at hcol
    rw [hends.stop, hends.start]
    refine ⟨Position.within_past_origin (Nat.le_refl _), ?_, ?_⟩ <;> simp only <;> omega
  · obtain ⟨-, -, hstart, hstop⟩ := mem_closing ht
    have hlines := Text.length_lines_le source
    rw [hstop, hstart]
    exact ⟨⟨Nat.succ_le_succ hlines, Nat.zero_le _⟩, Nat.succ_le_succ hlines, Nat.zero_le _⟩

/-- The place of an error is not farther off than that of a token. -/
theorem within_of_error {source : Text} {e : LexicalError} (h : tokenize source = .error e) :
    e.position.Within (source.length + 1) := by
  have hlines := Text.length_lines_le source
  unfold tokenize at h
  simp only at h
  split at h
  · rename_i p hcut
    cases h
    obtain ⟨hline, line, hmem, hcol⟩ := Segmentation.within_of_cutLines hcut
    have hlength := Text.length_le_of_mem_lines hmem
    constructor <;> simp only <;> omega
  · rename_i pieces s hcut
    unfold finish at h
    simp only at h
    split at h
    · cases h
      have hlength := congrArg List.length (Segmentation.cutLines_cover hcut)
      rw [Text.flatten_lines, List.length_append] at hlength
      change _ = source.length at hlength
      exact Position.within_past_origin (by omega)
    · cases h
      exact ⟨Nat.succ_le_succ hlines, Nat.zero_le _⟩
    · split at h
      · cases h
      · cases h
        exact ⟨Nat.succ_le_succ hlines, Nat.zero_le _⟩

end SourceTokens
