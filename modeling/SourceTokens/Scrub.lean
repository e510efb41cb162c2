import SourceTokens.Token

/-!
Scrubbing drops the layout noise of a token list. Comments and line breaks that end no statement
go first; of what remains, the end of a line goes when another end of a line or an indent follows
it. What is kept stays in order and nothing is added.
-/

namespace SourceTokens

def Token.isNoise (t : Token) : Bool := t.kind == .comment || t.kind == .lineBreak

/-- Whether the end of a line before this token says nothing. -/
def Token.supersedesNewline (t : Token) : Bool := t.kind == .newline || t.kind == .indent

def dropSuperseded : List Token → List Token
  | [] => []
  | [t] => [t]
  | t :: next :: rest =>
    if t.kind == .newline && next.supersedesNewline then dropSuperseded (next :: rest)
    else t :: dropSuperseded (next :: rest)

def scrub (tokens : List Token) : List Token :=
  dropSuperseded (tokens.filter fun t => !t.isNoise)

end SourceTokens
