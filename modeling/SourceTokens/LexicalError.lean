import SourceTokens.Position

/-!
Why a source cannot be cut into tokens, and how that is shown. The rendered form repeats the
offending line and puts a caret under the column, below a padding that keeps the tabs of the
line so that both columns stay aligned.
-/

namespace SourceTokens

inductive LexicalError.Cause
  | unterminatedString
  | unterminatedStatement
  /-- A line is indented less than the block around it, but as far as no open block. -/
  | inconsistentDedent
  deriving DecidableEq, Repr

structure LexicalError where
  cause : LexicalError.Cause
  position : Position
  /-- The physical line that holds the position, when there is one. -/
  line : Option Text := none
  deriving DecidableEq, Repr

namespace LexicalError

def Cause.message : Cause → Text
  | .unterminatedString => "EOF in multi-line string".toList
  | .unterminatedStatement => "EOF in multi-line statement".toList
  | .inconsistentDedent => "unindent does not match any outer indentation level".toList

def message (e : LexicalError) : Text :=
  e.cause.message ++ " at line ".toList ++ Text.ofNat e.position.line ++
    ", column ".toList ++ Text.ofNat e.position.col

def padding (text : Text) : Text := text.map fun c => if c = '\t' then '\t' else ' '

def excerpt (line : Text) (col : Nat) : Text :=
  let shown := Text.dropBreaks line
  "\n  | ".toList ++ shown ++ "\n  | ".toList ++ padding (shown.take col) ++ ['^']

/-- The error as shown to a reader, for a source of the given name. Columns are shown from
one here. -/
def render (name : Text) (e : LexicalError) : Text :=
  "Error:".toList ++ Text.ofNat e.position.line ++ ':' :: Text.ofNat (e.position.col + 1) ++
    ": ".toList ++ name ++ ": ".toList ++ e.cause.message ++
    match e.line with
    | none => []
    | some line => excerpt line e.position.col

end LexicalError

end SourceTokens
