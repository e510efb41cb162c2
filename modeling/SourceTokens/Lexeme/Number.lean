import SourceTokens.Text

/-!
Numeric literals. Each function here measures how many characters at the front of a text belong
to one form of literal, and answers zero when the text does not start with that form, so an
optional part is simply added. The forms overlap and are tried in order: the first that is
present wins, which makes `0777` the literal `0` followed by other text.
-/

namespace SourceTokens.Number

/-- Digits of one kind, where a single underscore may stand before any of them. -/
def run (isDigit : Char → Bool) : Text → Nat
  | '_' :: d :: rest => if isDigit d then run isDigit rest + 2 else 0
  | c :: rest => if isDigit c then run isDigit rest + 1 else 0
  | [] => 0

def digits : Text → Nat
  | [] => 0
  | c :: rest => if c.isDigit then run Char.isDigit rest + 1 else 0

def sign : Text → Nat
  | '+' :: _ => 1
  | '-' :: _ => 1
  | _ => 0

def exponent : Text → Nat
  | [] => 0
  | c :: rest =>
    if c = 'e' ∨ c = 'E' then
      let signed := sign rest
      let power := digits (rest.drop signed)
      if power = 0 then 0 else 1 + signed + power
    else 0

def pointFloat (text : Text) : Nat :=
  let whole := digits text
  match text.drop whole with
  | '.' :: rest =>
    let fraction := digits rest
    if whole = 0 ∧ fraction = 0 then 0
    else whole + 1 + fraction + exponent (rest.drop fraction)
  | _ => 0

def exponentFloat (text : Text) : Nat :=
  let whole := digits text
  let power := exponent (text.drop whole)
  if whole = 0 ∨ power = 0 then 0 else whole + power

/-- The first length that is not zero, if there is one. -/
def firstPresent : List Nat → Nat
  | [] => 0
  | n :: later => if n = 0 then firstPresent later else n

def float (text : Text) : Nat := firstPresent [pointFloat text, exponentFloat text]

def imaginary (length : Nat) (text : Text) : Nat :=
  match text.drop length with
  | c :: _ => if length ≠ 0 ∧ (c = 'j' ∨ c = 'J') then length + 1 else 0
  | [] => 0

def based (letter : Char) (isDigit : Char → Bool) : Text → Nat
  | '0' :: c :: rest =>
    let value := run isDigit rest
    if c.toLower = letter ∧ value ≠ 0 then value + 2 else 0
  | _ => 0

def isHexDigit (c : Char) : Bool :=
  c.isDigit || ('a' ≤ c && c ≤ 'f') || ('A' ≤ c && c ≤ 'F')

def isOctalDigit (c : Char) : Bool := '0' ≤ c && c ≤ '7'

def isBinaryDigit (c : Char) : Bool := c == '0' || c == '1'

def decimal : Text → Nat
  | [] => 0
  | c :: rest => if c = '0' then run (· == '0') rest + 1 else digits (c :: rest)

def length (text : Text) : Nat :=
  firstPresent [
    imaginary (digits text) text,
    imaginary (float text) text,
    float text,
    based 'x' isHexDigit text,
    based 'b' isBinaryDigit text,
    based 'o' isOctalDigit text,
    decimal text]

end SourceTokens.Number
