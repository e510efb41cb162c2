import SourceTokens.Text

/-!
The numbers of a document. A number keeps all of its digits, so a whole number is told from one
that was written with a fraction or an exponent. Reading a document completely also asks that
every number fit a double; one that is only skipped may be of any size.
-/

namespace SourceTokens.Json

structure Number where
  negative : Bool := false
  whole : Nat
  /-- The digits after the point; none of them when there is no point. -/
  fraction : List (Fin 10) := []
  exponent : Option Int := none
  deriving DecidableEq, Repr

namespace Number

def ofNat (n : Nat) : Number := { whole := n }

def toNat? (n : Number) : Option Nat :=
  if !n.negative && n.fraction.isEmpty && n.exponent.isNone then some n.whole else none

def digitOf (c : Char) : Fin 10 := Fin.ofNat 10 (c.toNat - '0'.toNat)

def appendDigits (n : Nat) (digits : List (Fin 10)) : Nat :=
  digits.foldl (fun n d => n * 10 + d.val) n

def spanDigits (text : Text) : List (Fin 10) × Text :=
  ((text.takeWhile Char.isDigit).map digitOf, text.dropWhile Char.isDigit)

def readDigits? (text : Text) : Option (List (Fin 10) × Text) :=
  let (digits, rest) := spanDigits text
  if digits.isEmpty then none else some (digits, rest)

def readWhole? (text : Text) : Option (Nat × Text) := do
  let (digits, rest) ← readDigits? text
  if digits.head? = some 0 ∧ digits.length ≠ 1 then none
  else some (appendDigits 0 digits, rest)

def readFraction? : Text → Option (List (Fin 10) × Text)
  | '.' :: rest => readDigits? rest
  | text => some ([], text)

def readSignedDigits? : Text → Option (Int × Text)
  | '-' :: rest => (readDigits? rest).map fun (ds, after) => (-(appendDigits 0 ds : Int), after)
  | '+' :: rest => (readDigits? rest).map fun (ds, after) => ((appendDigits 0 ds : Int), after)
  | text => (readDigits? text).map fun (ds, after) => ((appendDigits 0 ds : Int), after)

def readExponent? : Text → Option (Option Int × Text)
  | [] => some (none, [])
  | c :: rest =>
    if c = 'e' ∨ c = 'E' then (readSignedDigits? rest).map fun (n, after) => (some n, after)
    else some (none, c :: rest)

def readUnsigned? (negative : Bool) (text : Text) : Option Number := do
  let (whole, rest) ← readWhole? text
  let (fraction, rest) ← readFraction? rest
  let (exponent, rest) ← readExponent? rest
  if rest.isEmpty then some ⟨negative, whole, fraction, exponent⟩ else none

def read? : Text → Option Number
  | '-' :: rest => readUnsigned? true rest
  | text => readUnsigned? false text

def digitChar (d : Fin 10) : Char := Nat.digitChar d.val

def signedText (n : Int) : Text :=
  if n < 0 then '-' :: Text.ofNat n.natAbs else Text.ofNat n.natAbs

def text (n : Number) : Text :=
  (if n.negative then ['-'] else []) ++ Text.ofNat n.whole ++
    (if n.fraction.isEmpty then [] else '.' :: n.fraction.map digitChar) ++
    match n.exponent with
    | none => []
    | some e => 'e' :: signedText e

/-- Appends digits to a value as long as it stays below two to the power 64, and counts how
many were appended. -/
def keepDigits (n : Nat) : List (Fin 10) → Nat × Nat
  | [] => (n, 0)
  | d :: rest =>
    let m := n * 10 + d.val
    if m < Nat.pow 2 64 then
      let (value, count) := keepDigits m rest
      (value, count + 1)
    else (n, 0)

/-- The nearest number with a significand of 53 bits; a half goes to the even neighbour. -/
def roundTo53Bits (n : Nat) : Nat :=
  let unit := Nat.pow 2 (Nat.log2 n - 52)
  let quotient := n / unit
  let twice := 2 * (n % unit)
  if unit < twice ∨ (twice = unit ∧ quotient % 2 = 1) then (quotient + 1) * unit
  else quotient * unit

def wholeDigits (n : Number) : List (Fin 10) := (Text.ofNat n.whole).map digitOf

def scaled (n : Number) : Nat × Int :=
  let (whole, wholeKept) := keepDigits 0 n.wholeDigits
  let (value, fractionKept) := keepDigits whole n.fraction
  (value, (n.wholeDigits.length : Int) - wholeKept - fractionKept + n.exponent.getD 0)

/-- Whether the product of the kept digits and their power of ten, both held to 53 bits, does
not round beyond the largest double. -/
def fitsDouble (n : Number) : Bool :=
  let (value, scale) := n.scaled
  if value = 0 ∨ scale < 0 then true
  else if 308 < scale then false
  else roundTo53Bits value * roundTo53Bits (Nat.pow 10 scale.toNat) < Nat.pow 2 1024 - Nat.pow 2 970

end Number

end SourceTokens.Json
