import SourceTokens.Unicode.Ranges

/-!
The characters with the property White_Space, and the trimming of text by them. The property
is wider than the blanks that separate tokens: it also holds line terminators, the no-break
space and the spaces of typesetting.
-/

namespace SourceTokens.Unicode

def whiteSpaceRanges : List Range := [
    (0x9, 0xD), (0x20, 0x20), (0x85, 0x85), (0xA0, 0xA0), (0x1680, 0x1680), (0x2000, 0x200A),
    (0x2028, 0x2029), (0x202F, 0x202F), (0x205F, 0x205F), (0x3000, 0x3000)]

def isWhiteSpace (c : Char) : Bool := inRanges c.toNat whiteSpaceRanges

def trim (text : List Char) : List Char :=
  ((text.dropWhile isWhiteSpace).reverse.dropWhile isWhiteSpace).reverse

def isAllWhiteSpace (text : List Char) : Bool := text.all isWhiteSpace

end SourceTokens.Unicode
