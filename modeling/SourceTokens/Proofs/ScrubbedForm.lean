import Mathlib.Data.List.Chain
import SourceTokens.Proofs.Scrubbing

/-!
The lists that scrubbing leaves. They hold no comments and no line breaks inside statements, and no
end of a line stands directly before another one or before an indent. These are the lists that
scrubbing leaves as they are. Tokens that are not about the layout of lines are all kept, and what
is left between two of them is at most one end of a line: the last one, unless an indent follows.
-/

namespace SourceTokens

def Token.isDroppable (t : Token) : Bool := t.isNoise || t.kind == .newline

/-- Whether the second token leaves the first one its say as the end of a line. -/
def Follows (t u : Token) : Prop := t.kind = .newline → u.kind ≠ .newline ∧ u.kind ≠ .indent

/-- Lists without noise in which no end of a line is superseded. -/
structure IsScrubbed (tokens : List Token) : Prop where
  noComment : ∀ t ∈ tokens, t.kind ≠ .comment
  noLineBreak : ∀ t ∈ tokens, t.kind ≠ .lineBreak
  follows : tokens.IsChain Follows

def remnant (gap after : List Token) : List Token :=
  if after.head?.any (·.kind == .indent) then []
  else (gap.filter (·.kind == .newline)).getLast?.toList

theorem isNoise_iff {t : Token} : t.isNoise = true ↔ t.kind = .comment ∨ t.kind = .lineBreak := by
  simp [Token.isNoise]

theorem follows_iff {t u : Token} :
    Follows t u ↔ (t.kind == .newline && u.supersedesNewline) = false := by
  unfold Follows Token.supersedesNewline
  cases t.kind <;> cases u.kind <;> decide

theorem dropSuperseded_cons_of_follows {t next : Token} (rest : List Token) (h : Follows t next) :
    dropSuperseded (t :: next :: rest) = t :: dropSuperseded (next :: rest) := by
  rw [dropSuperseded, follows_iff.1 h, if_neg Bool.false_ne_true]

theorem dropSuperseded_cons_of_superseded {t next : Token} (rest : List Token)
    (h : ¬ Follows t next) :
    dropSuperseded (t :: next :: rest) = dropSuperseded (next :: rest) := by
  rw [follows_iff, Bool.not_eq_false] at h
  rw [dropSuperseded, if_pos h]

/-- Only the end of a line can be dropped from the front. -/
theorem head?_dropSuperseded {t : Token} (rest : List Token) (h : t.kind ≠ .newline) :
    (dropSuperseded (t :: rest)).head? = some t := by
  cases rest with
  | nil => rfl
  | cons next rest =>
    rw [dropSuperseded_cons_of_follows rest fun hnewline => absurd hnewline h]
    rfl

/-- The last token is never dropped. -/
theorem getLast?_dropSuperseded (tokens : List Token) :
    (dropSuperseded tokens).getLast? = tokens.getLast? := by
  fun_induction dropSuperseded tokens with
  | case1 => rfl
  | case2 => rfl
  | case3 t next rest hdrop ih => rw [ih, List.getLast?_cons_cons]
  | case4 t next rest hkeep ih =>
    rw [List.getLast?_cons, ih, List.getLast?_cons_cons, List.getLast?_cons]
    rfl

theorem isChain_dropSuperseded (tokens : List Token) :
    (dropSuperseded tokens).IsChain Follows := by
  fun_induction dropSuperseded tokens with
  | case1 => exact List.isChain_nil
  | case2 t => exact List.isChain_singleton t
  | case3 t next rest hdrop ih => exact ih
  | case4 t next rest hkeep ih =>
    refine List.isChain_cons.2 ⟨fun u hu hnewline => ?_, ih⟩
    -- Behind an end of a line that is kept the next token is none, so it is kept as well.
    have hfollows : Follows t next := follows_iff.2 (Bool.not_eq_true _ ▸ hkeep)
    have hnext := hfollows hnewline
    rw [head?_dropSuperseded rest hnext.1, Option.mem_some_iff] at hu
    rwa [← hu]

theorem dropSuperseded_of_isChain {tokens : List Token} (h : tokens.IsChain Follows) :
    dropSuperseded tokens = tokens := by
  induction tokens with
  | nil => rfl
  | cons t rest ih =>
    cases rest with
    | nil => rfl
    | cons next rest =>
      obtain ⟨hfollows, hrest⟩ := List.isChain_cons_cons.1 h
      rw [dropSuperseded_cons_of_follows rest hfollows, ih hrest]

/-- Lists are treated apart where the second does not begin with what supersedes the end of the
first. -/
theorem dropSuperseded_append {a b : List Token}
    (h : ∀ t ∈ a.getLast?, ∀ u ∈ b.head?, Follows t u) :
    dropSuperseded (a ++ b) = dropSuperseded a ++ dropSuperseded b := by
  induction a with
  | nil => rfl
  | cons t rest ih =>
    cases rest with
    | nil =>
      cases b with
      | nil => rfl
      | cons u later => exact dropSuperseded_cons_of_follows later (h t rfl u rfl)
    | cons next rest =>
      rw [List.getLast?_cons_cons] at h
      have hrest := ih h
      simp only [List.cons_append] at hrest ⊢
      by_cases hfollows : Follows t next
      · rw [dropSuperseded_cons_of_follows _ hfollows, dropSuperseded_cons_of_follows _ hfollows,
          hrest, List.cons_append]
      · rw [dropSuperseded_cons_of_superseded _ hfollows,
          dropSuperseded_cons_of_superseded _ hfollows, hrest]

/-- Of ends of lines the last is left, and not even that before an indent. -/
theorem dropSuperseded_newlines {newlines after : List Token}
    (h : ∀ t ∈ newlines, t.kind = .newline) (hafter : ∀ u ∈ after.head?, u.kind ≠ .newline) :
    dropSuperseded (newlines ++ after) =
      (if after.head?.any (·.kind == .indent) then [] else newlines.getLast?.toList) ++
        dropSuperseded after := by
  induction newlines with
  | nil => simp
  | cons t rest ih =>
    obtain ⟨ht, hrest⟩ := List.forall_mem_cons.1 h
    cases rest with
    | nil =>
      cases after with
      | nil => simp [dropSuperseded]
      | cons u later =>
        have hu : u.kind ≠ .newline := hafter u rfl
        by_cases hindent : u.kind = .indent
        · have hsuperseded : ¬ Follows t u := fun hfollows => (hfollows ht).2 hindent
          simpa [hindent] using dropSuperseded_cons_of_superseded later hsuperseded
        · have hfollows : Follows t u := fun _ => ⟨hu, hindent⟩
          simpa [hindent] using dropSuperseded_cons_of_follows later hfollows
    | cons next rest =>
      have hsuperseded : ¬ Follows t next :=
        fun hfollows => (hfollows ht).1 (hrest next (List.mem_cons_self ..))
      rw [List.cons_append, List.cons_append, dropSuperseded_cons_of_superseded _ hsuperseded,
        ← List.cons_append, ih hrest, List.getLast?_cons_cons]

theorem isScrubbed_scrub (tokens : List Token) : IsScrubbed (scrub tokens) := by
  have hquiet : ∀ t ∈ scrub tokens, ¬ (t.kind = .comment ∨ t.kind = .lineBreak) := by
    intro t ht hnoise
    exact not_mem_scrub_of_noise (isNoise_iff.2 hnoise) ht
  exact ⟨fun t ht h => hquiet t ht (.inl h), fun t ht h => hquiet t ht (.inr h),
    isChain_dropSuperseded _⟩

theorem scrub_eq_self_iff {tokens : List Token} : scrub tokens = tokens ↔ IsScrubbed tokens := by
  constructor
  · intro h
    rw [← h]
    exact isScrubbed_scrub tokens
  · intro h
    have hquiet : ∀ t ∈ tokens, !t.isNoise := by
      intro t ht
      rw [Bool.not_eq_true', ← Bool.not_eq_true, isNoise_iff]
      rintro (hcomment | hbreak)
      · exact h.noComment t ht hcomment
      · exact h.noLineBreak t ht hbreak
    rw [scrub, List.filter_eq_self.2 hquiet, dropSuperseded_of_isChain h.follows]

/-- All tokens that are not about the layout of lines are kept. -/
theorem filter_dropSuperseded (tokens : List Token) :
    (dropSuperseded tokens).filter (!·.isDroppable) = tokens.filter (!·.isDroppable) := by
  fun_induction dropSuperseded tokens with
  | case1 => rfl
  | case2 => rfl
  | case3 t next rest hdrop ih =>
    rw [Bool.and_eq_true] at hdrop
    have hdroppable : t.isDroppable := by simp [Token.isDroppable, hdrop.1]
    rw [ih, List.filter_cons (x := t), hdroppable]
    rfl
  | case4 t next rest hkeep ih =>
    rw [List.filter_cons, ih, List.filter_cons (x := t)]

theorem filter_scrub (tokens : List Token) :
    (scrub tokens).filter (!·.isDroppable) = tokens.filter (!·.isDroppable) := by
  rw [scrub, filter_dropSuperseded, List.filter_filter]
  congr 1
  funext t
  cases hnoise : t.isNoise <;> simp [Token.isDroppable, hnoise]

/-- Without noise, droppable tokens are ends of lines. -/
theorem filter_noise_of_droppable {gap : List Token} (h : ∀ t ∈ gap, t.isDroppable) :
    gap.filter (!·.isNoise) = gap.filter (·.kind == .newline) := by
  apply List.filter_congr
  intro t ht
  have hdroppable := h t ht
  rw [Token.isDroppable] at hdroppable
  cases hnoise : t.isNoise with
  | true =>
    rcases isNoise_iff.1 hnoise with hkind | hkind <;> rw [hkind] <;> rfl
  | false =>
    rw [hnoise, Bool.false_or] at hdroppable
    exact hdroppable.symm

section Segments

variable {before gap after : List Token}

theorem kind_ne_of_kept {t : Token} (h : t.isDroppable = false) :
    t.isNoise = false ∧ t.kind ≠ .newline := by
  simpa [Token.isDroppable] using h

/-- The first token of a list stays its first when it is none to drop. -/
theorem head?_filter_noise (h : ∀ u ∈ after.head?, u.isDroppable = false) :
    (after.filter (!·.isNoise)).head? = after.head? := by
  cases after with
  | nil => rfl
  | cons u later =>
    have hquiet := (kind_ne_of_kept (h u rfl)).1
    rw [List.filter_cons_of_pos (by simp [hquiet])]
    rfl

theorem getLast?_filter_noise (h : ∀ t ∈ before.getLast?, t.isDroppable = false) :
    (before.filter (!·.isNoise)).getLast? = before.getLast? := by
  rcases List.eq_nil_or_concat before with rfl | ⟨front, t, rfl⟩
  · rfl
  · rw [List.concat_eq_append] at h ⊢
    have hquiet := (kind_ne_of_kept (h t (by simp))).1
    rw [List.filter_append, List.filter_cons_of_pos (by simp [hquiet])]
    simp

theorem head?_scrub (h : ∀ u ∈ after.head?, u.isDroppable = false) :
    (scrub after).head? = after.head? := by
  rw [scrub, ← head?_filter_noise h]
  cases hquiet : after.filter (!·.isNoise) with
  | nil => rfl
  | cons u later =>
    have hkept : u ∈ after.head? := by rw [← head?_filter_noise h, hquiet]; rfl
    exact head?_dropSuperseded later (kind_ne_of_kept (h u hkept)).2

theorem getLast?_scrub (h : ∀ t ∈ before.getLast?, t.isDroppable = false) :
    (scrub before).getLast? = before.getLast? :=
  (getLast?_dropSuperseded _).trans (getLast?_filter_noise h)

/-- Between tokens that are kept only the remnant of what stood there is left. -/
theorem scrub_append (hbefore : ∀ t ∈ before.getLast?, t.isDroppable = false)
    (hgap : ∀ t ∈ gap, t.isDroppable) (hafter : ∀ u ∈ after.head?, u.isDroppable = false) :
    scrub (before ++ (gap ++ after)) = scrub before ++ (remnant gap after ++ scrub after) := by
  have hlast : ∀ t ∈ (before.filter (!·.isNoise)).getLast?, t.kind ≠ .newline := by
    rw [getLast?_filter_noise hbefore]
    exact fun t ht => (kind_ne_of_kept (hbefore t ht)).2
  have hfirst : ∀ u ∈ (after.filter (!·.isNoise)).head?, u.kind ≠ .newline := by
    rw [head?_filter_noise hafter]
    exact fun u hu => (kind_ne_of_kept (hafter u hu)).2
  have hnewlines : ∀ t ∈ gap.filter (·.kind == .newline), t.kind = .newline :=
    fun t ht => by simpa using (List.mem_filter.1 ht).2
  rw [scrub, List.filter_append, List.filter_append, filter_noise_of_droppable hgap,
    dropSuperseded_append fun t ht u _ hnewline => absurd hnewline (hlast t ht),
    dropSuperseded_newlines hnewlines hfirst, head?_filter_noise hafter]
  rfl

end Segments

/-- What scrubbing leaves is a normal form, and it is what the list itself is when it is in this
form already. All tokens that are not about the layout of lines are kept. Between two of them,
before the first and behind the last, no more is left than the remnant of what stood there. -/
theorem scrub_normal_form (tokens : List Token) :
    IsScrubbed (scrub tokens) ∧ (scrub tokens).Sublist tokens ∧
    (scrub tokens = tokens ↔ IsScrubbed tokens) ∧ scrub (scrub tokens) = scrub tokens ∧
    (scrub tokens).filter (!·.isDroppable) = tokens.filter (!·.isDroppable) ∧
    ∀ before gap after, tokens = before ++ (gap ++ after) →
      (∀ t ∈ before.getLast?, t.isDroppable = false) → (∀ t ∈ gap, t.isDroppable) →
      (∀ u ∈ after.head?, u.isDroppable = false) →
      scrub tokens = scrub before ++ (remnant gap after ++ scrub after) ∧
        (scrub before).getLast? = before.getLast? ∧ (scrub after).head? = after.head? := by
  refine ⟨isScrubbed_scrub tokens, scrub_sublist tokens, scrub_eq_self_iff,
    scrub_eq_self_iff.2 (isScrubbed_scrub tokens), filter_scrub tokens, ?_⟩
  intro before gap after htokens hbefore hgap hafter
  rw [htokens]
  exact ⟨scrub_append hbefore hgap hafter, getLast?_scrub hbefore, head?_scrub hafter⟩

/-- Of two ends of lines among comments the second is left, and one before an indent is not. -/
theorem scrub_normal_form_of_two_newlines :
    let token (kind : TokenKind) (line : Nat) : Token := ⟨kind, [], ⟨line, 0⟩, ⟨line, 1⟩, none⟩
    let before := [token .newline 1, token .lineBreak 2, token .name 3]
    let gap := [token .newline 3, token .comment 4, token .newline 5, token .lineBreak 6]
    let after := [token .name 7, token .newline 7, token .comment 8, token .indent 9]
    scrub (before ++ (gap ++ after)) = [token .newline 1, token .name 3, token .newline 5,
      token .name 7, token .indent 9] ∧
    scrub (before ++ (gap ++ after)) = scrub before ++ (remnant gap after ++ scrub after) ∧
      (scrub before).getLast? = some (token .name 3) ∧
      (scrub after).head? = some (token .name 7) := by
  intro token before gap after
  have hparts := (scrub_normal_form (before ++ (gap ++ after))).2.2.2.2.2 before gap after rfl
    (by simp [before, token, Token.isDroppable, Token.isNoise])
    (by simp [gap, token, Token.isDroppable, Token.isNoise])
    (by simp [after, token, Token.isDroppable, Token.isNoise])
  exact ⟨by rfl, hparts⟩

end SourceTokens
