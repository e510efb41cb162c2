import Mathlib.Data.List.Forall2
import SourceTokens.Scrub

/-!
What scrubbing does to a list of tokens. It only drops tokens, and which ones it drops depends on
the kinds alone, so lists that agree token by token up to anything but the kind stay so.
-/

namespace SourceTokens

theorem dropSuperseded_sublist (tokens : List Token) :
    (dropSuperseded tokens).Sublist tokens := by
  fun_induction dropSuperseded tokens with
  | case1 => exact List.Sublist.refl _
  | case2 => exact List.Sublist.refl _
  | case3 t next rest hdrop ih => exact ih.cons t
  | case4 t next rest hkeep ih => exact ih.cons_cons t

theorem scrub_sublist (tokens : List Token) : (scrub tokens).Sublist tokens :=
  (dropSuperseded_sublist _).trans List.filter_sublist

/-- Of what is no comment and no line break inside a statement, only ends of lines are dropped. -/
theorem mem_dropSuperseded {tokens : List Token} {t : Token} (ht : t ∈ tokens)
    (hkind : t.kind ≠ .newline) : t ∈ dropSuperseded tokens := by
  fun_induction dropSuperseded tokens with
  | case1 => exact ht
  | case2 => exact ht
  | case3 first next rest hdrop ih =>
    rcases List.mem_cons.1 ht with rfl | ht
    · rw [Bool.and_eq_true, beq_iff_eq] at hdrop
      exact absurd hdrop.1 hkind
    · exact ih ht
  | case4 first next rest hkeep ih =>
    rcases List.mem_cons.1 ht with rfl | ht
    · exact List.mem_cons_self ..
    · exact List.mem_cons_of_mem _ (ih ht)

/-- A token that is dropped is a comment or belongs to the layout of lines. -/
theorem kind_of_dropped {tokens : List Token} {t : Token} (ht : t ∈ tokens)
    (hdropped : t ∉ scrub tokens) :
    t.kind = .comment ∨ t.kind = .lineBreak ∨ t.kind = .newline := by
  by_contra hother
  simp only [not_or] at hother
  obtain ⟨hcomment, hbreak, hnewline⟩ := hother
  refine hdropped (mem_dropSuperseded (List.mem_filter.2 ⟨ht, ?_⟩) hnewline)
  simp [Token.isNoise, hcomment, hbreak]

theorem not_mem_scrub_of_noise {tokens : List Token} {t : Token} (h : t.isNoise) :
    t ∉ scrub tokens := by
  intro ht
  have hkept := (List.mem_filter.1 ((dropSuperseded_sublist _).subset ht)).2
  rw [h] at hkept
  cases hkept

section Related

variable {R : Token → Token → Prop} {a b : List Token}

theorem supersedesNewline_congr {t u : Token} (h : t.kind = u.kind) :
    t.supersedesNewline = u.supersedesNewline := by
  simp only [Token.supersedesNewline, h]

/-- Tokens that agree in their kinds are dropped from both lists or kept in both. -/
theorem forall₂_dropSuperseded (hkind : ∀ t u, R t u → t.kind = u.kind) (h : List.Forall₂ R a b) :
    List.Forall₂ R (dropSuperseded a) (dropSuperseded b) := by
  induction h with
  | nil => exact .nil
  | @cons t u rest rest' hfirst hrest ih =>
    cases hrest with
    | nil => exact .cons hfirst .nil
    | @cons next next' later later' hnext hlater =>
      rw [dropSuperseded, dropSuperseded, hkind t u hfirst,
        supersedesNewline_congr (hkind next next' hnext)]
      split
      · exact ih
      · exact .cons hfirst ih

theorem isNoise_congr {t u : Token} (h : t.kind = u.kind) : t.isNoise = u.isNoise := by
  simp only [Token.isNoise, h]

theorem forall₂_filter_noise (hkind : ∀ t u, R t u → t.kind = u.kind) (h : List.Forall₂ R a b) :
    List.Forall₂ R (a.filter fun t => !t.isNoise) (b.filter fun t => !t.isNoise) := by
  apply List.rel_filter _ h
  intro t u htu
  have hnoise := isNoise_congr (hkind t u htu)
  simp only [hnoise]

/-- Lists that agree in the kinds of their tokens are scrubbed alike. -/
theorem forall₂_scrub (hkind : ∀ t u, R t u → t.kind = u.kind) (h : List.Forall₂ R a b) :
    List.Forall₂ R (scrub a) (scrub b) :=
  forall₂_dropSuperseded hkind (forall₂_filter_noise hkind h)

end Related

/-- What changes no kind can be done before scrubbing or after it. -/
theorem scrub_map {f : Token → Token} (hkind : ∀ t, (f t).kind = t.kind) (tokens : List Token) :
    scrub (tokens.map f) = (scrub tokens).map f := by
  have hsame : List.Forall₂ (fun t u => f t = u) tokens (tokens.map f) :=
    List.forall₂_map_right_iff.2 (List.forall₂_same.2 fun _ _ => rfl)
  have hscrub := forall₂_scrub (by rintro t _ rfl; exact (hkind t).symm) hsame
  have hmap : List.Forall₂ Eq ((scrub tokens).map f) (scrub (tokens.map f)) :=
    List.forall₂_map_left_iff.2 hscrub
  rw [List.forall₂_eq_eq_eq] at hmap
  exact hmap.symm

end SourceTokens
