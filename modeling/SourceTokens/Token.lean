import SourceTokens.Position

/-!
Tokens and the closed set of lexical categories. A token records the exact text it covers and
where that text stands. Dedents and end markers are structural: they cover no text.
-/

namespace SourceTokens

inductive TokenKind
  | endMarker
  | name
  | number
  | string
  | newline
  | indent
  | dedent
  | operator
  | comment
  /-- A line break that ends no statement. -/
  | lineBreak
  /-- Text that fits no category. -/
  | unrecognized
  deriving DecidableEq, Repr, Inhabited

namespace TokenKind

def all : List TokenKind :=
  [endMarker, name, number, string, newline, indent, dedent, operator, comment, lineBreak,
    unrecognized]

def label : TokenKind → Text
  | endMarker => "ENDMARKER".toList
  | name => "NAME".toList
  | number => "NUMBER".toList
  | string => "STRING".toList
  | newline => "NEWLINE".toList
  | indent => "INDENT".toList
  | dedent => "DEDENT".toList
  | operator => "OP".toList
  | comment => "COMMENT".toList
  | lineBreak => "NL".toList
  | unrecognized => "ERRORTOKEN".toList

def ofLabel? (text : Text) : Option TokenKind := all.find? (·.label == text)

def index (kind : TokenKind) : Nat := all.idxOf kind

def isStructural : TokenKind → Bool
  | dedent | endMarker => true
  | _ => false

end TokenKind

structure Token where
  kind : TokenKind
  value : Text
  start : Position
  stop : Position
  /-- The physical line on which the token begins, for diagnostics only. -/
  line : Option Text := none
  deriving DecidableEq, Repr, Inhabited

namespace Token

/-- The token as it is recorded, without its physical line. -/
def record (t : Token) : Token := { t with line := none }

/-- Two tokens agree when their records do; the physical line does not count. -/
instance : BEq Token where
  beq a b := decide (a.record = b.record)

def down (t : Token) (n : Nat) : Token :=
  { t with start := t.start.down n, stop := t.stop.down n }

/-- A marker that covers no text, as opposed to one that was given some. -/
def writesNothing (t : Token) : Bool := t.kind.isStructural && t.value.isEmpty

end Token

end SourceTokens
