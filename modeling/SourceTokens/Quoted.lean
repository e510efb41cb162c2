import SourceTokens.Text
import SourceTokens.Unicode.Printable

/-!
Text between quotation marks for a reader of messages. Marks, backslashes and the common controls
are escaped by a letter; other characters that would not be seen are shown by their number.
-/

namespace SourceTokens.Text

def quotedChar (c : Char) : Text :=
  if c = '"' then ['\\', '"']
  else if c = '\\' then ['\\', '\\']
  else if c = '\t' then ['\\', 't']
  else if c = '\n' then ['\\', 'n']
  else if c = '\r' then ['\\', 'r']
  else if c.toNat = 0 then ['\\', '0']
  else if Unicode.isPrintable c then [c]
  else ['\\', 'u', '\x7b'] ++ Nat.toDigits 16 c.toNat ++ ['\x7d']

def quoted (text : Text) : Text := '"' :: text.flatMap quotedChar ++ ['"']

end SourceTokens.Text
