import SourceTokens.Token
import SourceTokens.Unicode.WhiteSpace

/-!
A short form of a token for display. A comment, or a token whose text would not be seen, shows as
its kind in angle brackets; every other token shows as its text. No token shows as nothing.
-/

namespace SourceTokens

def TokenKind.placeholder (kind : TokenKind) : Text := '<' :: kind.label ++ ['>']

def Token.display (t : Token) : Text :=
  if t.kind = .comment ∨ Unicode.isAllWhiteSpace t.value then t.kind.placeholder else t.value

theorem Token.display_ne_nil (t : Token) : t.display ≠ [] := by
  unfold Token.display
  split
  · simp [TokenKind.placeholder]
  · rintro h
    simp_all [Unicode.isAllWhiteSpace]

end SourceTokens
