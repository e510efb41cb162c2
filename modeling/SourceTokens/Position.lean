import SourceTokens.Text

/-!
Places in a source. Lines are counted from one and columns from zero, both exactly. A line
feed moves to the first column of the next line and any other character to the next column;
the character that ends a token is never moved past its own line, so a token that holds a
line terminator stops one column behind it.
-/

namespace SourceTokens

structure Position where
  line : Nat
  col : Nat
  deriving DecidableEq, Repr, Inhabited

namespace Position

def origin : Position := ⟨1, 0⟩

/-- Lines decide first, columns within a line. -/
instance : Ord Position where
  compare a b := (compare a.line b.line).then (compare a.col b.col)

def before (a b : Position) : Bool := a.line < b.line || (a.line == b.line && a.col < b.col)

def step (p : Position) (c : Char) : Position :=
  if c = '\n' then ⟨p.line + 1, 0⟩ else ⟨p.line, p.col + 1⟩

def past (p : Position) (text : Text) : Position := text.foldl step p

/-- The place where a text stops on the line of its last character. -/
def stop (p : Position) (text : Text) : Position :=
  if text = [] then p
  else
    let last := p.past text.dropLast
    ⟨last.line, last.col + 1⟩

def down (p : Position) (n : Nat) : Position := ⟨p.line + n, p.col⟩

def label (p : Position) : Text := Text.ofNat p.line ++ ':' :: Text.ofNat p.col

theorem past_nil (p : Position) : p.past [] = p := rfl

theorem past_append (p : Position) (a b : Text) : p.past (a ++ b) = (p.past a).past b :=
  List.foldl_append

end Position

end SourceTokens
