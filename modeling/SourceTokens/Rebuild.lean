import SourceTokens.Token

/-!
The text of a token list, rebuilt from the places of its tokens. A cursor stands at the end of the
text written so far. Line breaks bring it to the line of the next token and spaces to its column.
A break in the middle of a line is written as a continuation, so that a statement is not cut in
two; what else stood between the tokens is not recorded and comes back as spaces. A token that
starts behind the cursor cannot be placed.
-/

namespace SourceTokens

structure PlacementError where
  /-- The place in the list of the token that could not be placed. -/
  index : Nat
  kind : TokenKind
  start : Position
  cursor : Position
  deriving DecidableEq, Repr

def PlacementError.message (e : PlacementError) : Text :=
  "token #".toList ++ Text.ofNat e.index ++ " (".toList ++ e.kind.label ++
    ") starts at ".toList ++ e.start.label ++ ", behind the reconstruction cursor at ".toList ++
    e.cursor.label

namespace Rebuild

/-- Line breaks from a column on. Only the first can stand in the middle of a line. -/
def breaks (col : Nat) : Nat → Text
  | 0 => []
  | n + 1 => if col = 0 then '\n' :: breaks 0 n else '\\' :: '\n' :: breaks 0 n

def padding (cursor start : Position) : Text :=
  if cursor.line < start.line then
    breaks cursor.col (start.line - cursor.line) ++ List.replicate start.col ' '
  else List.replicate (start.col - cursor.col) ' '

def textFrom (index : Nat) (cursor : Position) : List Token → Except PlacementError Text
  | [] => .ok []
  | t :: rest =>
    if t.start.before cursor then .error ⟨index, t.kind, t.start, cursor⟩
    else if t.writesNothing then textFrom (index + 1) cursor rest
    else
      match textFrom (index + 1) (t.start.past t.value) rest with
      | .ok text => .ok (padding cursor t.start ++ (t.value ++ text))
      | .error e => .error e

end Rebuild

def rebuild (tokens : List Token) : Except PlacementError Text :=
  Rebuild.textFrom 0 .origin tokens

end SourceTokens
