import SourceTokens.Proofs.Blocks
import SourceTokens.Proofs.Places
import SourceTokens.Proofs.Shapes
import SourceTokens.Tokenize

/-!
An accepted source leaves nothing unfinished, so its pieces are the whole of it, and its tokens are
those of its pieces and the ones supplied behind the last line.
-/

namespace SourceTokens

open Segmentation

/-- An accepted source and its tokens, with the pieces and the open blocks behind them. -/
structure Accepted (source : Text) (tokens : List Token) (pieces : List Piece)
    (levels : List Nat) : Prop where
  cut : cutLines {} (Text.lines source) = .ok (pieces, { levels := levels })
  cover : Piece.cover pieces = source
  shaped : Piece.Shaped pieces []
  nested : Indentation.Nested levels
  tokens_eq : tokens = Piece.place (Text.lines source).toArray .origin pieces ++
    suppliedNewline (Text.lines source) ++ closing (Text.lines source).length levels

theorem exists_accepted {source : Text} {tokens : List Token} (h : tokenize source = .ok tokens) :
    ∃ pieces levels, Accepted source tokens pieces levels := by
  unfold tokenize at h
  simp only at h
  split at h
  · cases h
  · rename_i pieces s hcut
    obtain ⟨levels, depth, carry⟩ := s
    simp only [finish] at h
    split at h
    · cases h
    · cases h
    · split at h
      · rename_i hdepth
        subst hdepth
        cases h
        have hcover := cutLines_cover hcut
        simp only [LineScan.Carry.text, List.append_nil, List.nil_append,
          Text.flatten_lines] at hcover
        have hshaped := cutLines_shaped (fun _ => Text.ne_nil_of_mem_lines) hcut
        exact ⟨pieces, levels, hcut, hcover, hshaped, cutLines_nested hcut, rfl⟩
      · cases h

end SourceTokens
