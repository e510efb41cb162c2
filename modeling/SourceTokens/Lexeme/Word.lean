import SourceTokens.Unicode.Alphabetic
import SourceTokens.Unicode.Numeric

/-!
Words are identifiers and keywords: a letter or an underscore, then letters, numbers and
underscores. Every character that starts a word also continues one.
-/

namespace SourceTokens.Word

open Unicode

def isStart (c : Char) : Bool := c == '_' || isAlphabetic c

def isContinue (c : Char) : Bool := c == '_' || isAlphabetic c || isNumeric c

theorem isContinue_of_isStart {c : Char} (h : isStart c) : isContinue c := by
  simp_all [isStart, isContinue]

end SourceTokens.Word
