import Mathlib.Data.List.Basic
import SourceTokens.Proofs.Cuts

/-!
The open blocks along a run of lines. Their widths grow from the width zero of the source itself to
that of the innermost block. A line with code opens a block, closes blocks or leaves them as they
are; no other line touches them.
-/

namespace SourceTokens

namespace Indentation

/-- Widths of open blocks, innermost first: each is larger than those of the blocks around it, and
the outermost one is the source itself. -/
structure Nested (levels : List Nat) : Prop where
  decreasing : levels.Pairwise (· > ·)
  bottom : levels.getLast? = some 0

theorem nested_root : Nested [0] := ⟨List.pairwise_singleton _ _, rfl⟩

namespace Nested

variable {levels : List Nat} {column : Nat}

theorem push (h : Nested levels) (hdeeper : innermost levels < column) :
    Nested (column :: levels) := by
  cases levels with
  | nil => cases h.bottom
  | cons top outer =>
    refine ⟨List.pairwise_cons.2 ⟨?_, h.decreasing⟩, h.bottom⟩
    intro level hlevel
    rcases List.mem_cons.1 hlevel with rfl | hlevel
    · exact hdeeper
    · exact Nat.lt_trans ((List.pairwise_cons.1 h.decreasing).1 level hlevel) hdeeper

theorem pop (h : Nested levels) (hmem : column ∈ levels) :
    Nested (levels.dropWhile (column < ·)) := by
  have hsuffix := List.dropWhile_suffix (l := levels) (column < ·)
  have hne : levels.dropWhile (column < ·) ≠ [] := by
    intro hnil
    have hall := List.dropWhile_eq_nil_iff.1 hnil column hmem
    simp at hall
  refine ⟨h.decreasing.sublist hsuffix.sublist, ?_⟩
  obtain ⟨inner, hinner⟩ := hsuffix
  rw [← List.getLast?_append_of_ne_nil inner hne, hinner]
  exact h.bottom

theorem ne_nil (h : Nested levels) : levels ≠ [] := by
  rintro rfl
  cases h.bottom

/-- Without an inner block only the source itself is open. -/
theorem eq_root (h : Nested levels) (hnone : levels.tail = []) : levels = [0] := by
  cases levels with
  | nil => cases h.bottom
  | cons level outer =>
    obtain rfl : outer = [] := hnone
    have hzero : level = 0 := Option.some.inj h.bottom
    rw [hzero]

end Nested

theorem code_nested {levels next : List Nat} {line rest : Text} {pieces : List Piece}
    (h : LineStart levels line (.code pieces next rest)) (hlevels : Nested levels) :
    Nested next := by
  cases h with
  | opens blanks c rest hblanks hline hc hwidth => exact hlevels.push hwidth
  | closes blanks c rest hblanks hline hc hwidth hopen => exact hlevels.pop hopen
  | stays => exact hlevels

end Indentation

namespace Segmentation

open Indentation

theorem lineCut_nested {s next : State} {line : Text} {pieces : List Piece}
    (h : LineCut s line pieces next) (hs : Nested s.levels) : Nested next.levels := by
  cases h with
  | closes => exact hs
  | givesUp => exact hs
  | staysOpen => exact hs
  | noCode => exact hs
  | code before levels rest hcarry hdepth hstart => exact code_nested hstart hs
  | within => exact hs

/-- The widths of the open blocks are nested behind every run from the start of a source. -/
theorem cutLines_nested {s : State} {lines : List Text} {pieces : List Piece}
    (h : cutLines {} lines = .ok (pieces, s)) : Nested s.levels := by
  apply invariant_of_cutLines (I := fun s => Nested s.levels) _ h nested_root
  intro s line pieces next
  exact lineCut_nested

end Segmentation

end SourceTokens
