import SourceTokens.Segmentation
import SourceTokens.LexicalError
import SourceTokens.Unicode.WhiteSpace

/-!
The tokens of a source. After the last line every open block is closed and the end is marked,
one line below the last. A last line without a terminator is given an end of its own, unless it
reads as a comment. A source that ends inside a string, inside brackets or after a continuation
has no tokens.
-/

namespace SourceTokens

open Segmentation

def needsNewline (line : Text) : Bool :=
  !line.isEmpty && !line.getLast?.any Text.isBreak && (Unicode.trim line).head? != some '#'

def suppliedNewline (lines : List Text) : List Token :=
  let last := lines.getLastD []
  if needsNewline last then
    [{ kind := .newline, value := [], start := ⟨lines.length, last.length⟩,
       stop := ⟨lines.length, last.length + 1⟩ }]
  else []

def closing (lineCount : Nat) (levels : List Nat) : List Token :=
  let below : Position := ⟨lineCount + 1, 0⟩
  let marker (kind : TokenKind) : Token :=
    { kind := kind, value := [], start := below, stop := below }
  levels.tail.map (fun _ => marker .dedent) ++ [marker .endMarker]

def finish (lines : List Text) (pieces : List Piece) (s : State) :
    Except LexicalError (List Token) :=
  let table := lines.toArray
  match s.carry with
  | .string _ _ =>
    let opened := Position.origin.past (Piece.cover pieces)
    .error ⟨.unterminatedString, opened, table[opened.line - 1]?⟩
  | .continuation => .error ⟨.unterminatedStatement, ⟨lines.length + 1, 0⟩, none⟩
  | .nothing =>
    if s.depth = 0 then
      .ok (Piece.place table .origin pieces ++ suppliedNewline lines ++
        closing lines.length s.levels)
    else .error ⟨.unterminatedStatement, ⟨lines.length + 1, 0⟩, none⟩

def tokenize (source : Text) : Except LexicalError (List Token) :=
  let lines := Text.lines source
  match cutLines {} lines with
  | .error p => .error ⟨.inconsistentDedent, p, lines[p.line - 1]?⟩
  | .ok (pieces, s) => finish lines pieces s

end SourceTokens
