/-!
A set of characters is a table of ranges of code points. The ranges of a table stand in
increasing order, so a search ends at the first range that starts above the code point. The tables
are those of Unicode 17.0.
-/

namespace SourceTokens.Unicode

/-- The first and the last code point of a range; both belong to it. -/
abbrev Range := Nat × Nat

def inRanges (code : Nat) : List Range → Bool
  | [] => false
  | (first, last) :: later => first ≤ code && (code ≤ last || inRanges code later)

end SourceTokens.Unicode
