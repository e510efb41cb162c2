import SourceTokens.Text

/-!
Text as bytes. Reading never fails as a whole: bytes that encode no character come back as
ill-formed chunks, each the longest run of bytes that could still have started a character. A
strict reader refuses such chunks and a lenient one shows each of them as one replacement
character.
-/

namespace SourceTokens.Utf8

def encodeChar (c : Char) : List UInt8 :=
  let n := c.toNat
  let tail (k : Nat) : UInt8 := UInt8.ofNat (0x80 + n / k % 64)
  if n < 0x80 then [UInt8.ofNat n]
  else if n < 0x800 then [UInt8.ofNat (0xC0 + n / 64), tail 1]
  else if n < 0x10000 then [UInt8.ofNat (0xE0 + n / 4096), tail 64, tail 1]
  else [UInt8.ofNat (0xF0 + n / 262144), tail 4096, tail 64, tail 1]

def encode (text : Text) : List UInt8 := text.flatMap encodeChar

inductive Chunk
  | char (c : Char)
  | illFormed (bytes : List UInt8)
  deriving DecidableEq, Repr

structure Pending where
  bytes : List UInt8
  /-- How many bytes are owed after the next one. -/
  owed : Nat
  /-- The least and the greatest value that the next byte may have. -/
  low : Nat
  high : Nat
  /-- The bits of the code point read so far. -/
  code : Nat
  deriving DecidableEq, Repr

abbrev Progress := List Chunk × Option Pending

/-- The first byte of a character. The bounds on the second byte exclude forms that are too
long, surrogates and code points beyond the last plane. -/
def first (b : UInt8) : Progress :=
  let n := b.toNat
  let begun (owed low high code : Nat) : Progress := ([], some ⟨[b], owed, low, high, code⟩)
  if n < 0x80 then ([.char (Char.ofNat n)], none)
  else if n < 0xC2 then ([.illFormed [b]], none)
  else if n < 0xE0 then begun 0 0x80 0xBF (n - 0xC0)
  else if n < 0xF0 then
    begun 1 (if n = 0xE0 then 0xA0 else 0x80) (if n = 0xED then 0x9F else 0xBF) (n - 0xE0)
  else if n < 0xF5 then
    begun 2 (if n = 0xF0 then 0x90 else 0x80) (if n = 0xF4 then 0x8F else 0xBF) (n - 0xF0)
  else ([.illFormed [b]], none)

/-- A byte that does not belong to the character begun starts afresh. -/
def next (p : Pending) (b : UInt8) : Progress :=
  let n := b.toNat
  if p.low ≤ n ∧ n ≤ p.high then
    let code := p.code * 64 + (n - 0x80)
    if p.owed = 0 then ([.char (Char.ofNat code)], none)
    else ([], some ⟨p.bytes ++ [b], p.owed - 1, 0x80, 0xBF, code⟩)
  else
    let (chunks, begun) := first b
    (.illFormed p.bytes :: chunks, begun)

def chunksFrom : Option Pending → List UInt8 → List Chunk
  | none, [] => []
  | some p, [] => [.illFormed p.bytes]
  | begun, b :: rest =>
    let (chunks, later) := match begun with
      | none => first b
      | some p => next p b
    chunks ++ chunksFrom later rest

def chunks (bytes : List UInt8) : List Chunk := chunksFrom none bytes

def Chunk.char? : Chunk → Option Char
  | .char c => some c
  | .illFormed _ => none

def decode? (bytes : List UInt8) : Option Text := (chunks bytes).mapM Chunk.char?

def decodeLenient (bytes : List UInt8) : Text :=
  (chunks bytes).map fun chunk => chunk.char?.getD '\ufffd'

end SourceTokens.Utf8
