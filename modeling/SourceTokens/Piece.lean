import SourceTokens.Token

/-!
A source is first cut into pieces, which know nothing of places: gaps between tokens, and lexemes
with a kind. Put together in order the pieces are the text again, so the place of each follows
from the texts before it. A lexeme may cover no text at all; it then marks a place.
-/

namespace SourceTokens

inductive Piece
  | gap (text : Text)
  | lexeme (kind : TokenKind) (text : Text)
  deriving DecidableEq, Repr

namespace Piece

def text : Piece → Text
  | .gap text => text
  | .lexeme _ text => text

def cover (pieces : List Piece) : Text := pieces.flatMap text

theorem cover_cons (piece : Piece) (later : List Piece) :
    cover (piece :: later) = piece.text ++ cover later := List.flatMap_cons

theorem cover_append (a b : List Piece) : cover (a ++ b) = cover a ++ cover b :=
  List.flatMap_append

def place (lines : Array Text) (p : Position) : List Piece → List Token
  | [] => []
  | .gap text :: later => place lines (p.past text) later
  | .lexeme kind text :: later =>
    { kind := kind, value := text, start := p, stop := p.stop text,
      line := lines[p.line - 1]? } :: place lines (p.past text) later

theorem place_append (lines : Array Text) (p : Position) (a b : List Piece) :
    place lines p (a ++ b) = place lines p a ++ place lines (p.past (cover a)) b := by
  induction a generalizing p with
  | nil => rfl
  | cons piece rest ih =>
    cases piece <;>
      simp only [List.cons_append, place, ih, cover_cons, Piece.text, Position.past_append]

end Piece

end SourceTokens
