import Mathlib.Data.List.Basic
import SourceTokens.Utf8

/-!
Characters as bytes and back. The bytes of a character are read as that character whatever stands
behind them, so the bytes of a text are read as its characters.
-/

namespace SourceTokens.Utf8

theorem toNat_ofNat_of_lt {n : Nat} (h : n < 256) : (UInt8.ofNat n).toNat = n := by
  rw [UInt8.toNat_ofNat']
  exact Nat.mod_eq_of_lt h

/-- A byte that continues a character, with the six bits of a number at a power of 64. -/
def tail (n k : Nat) : UInt8 := UInt8.ofNat (0x80 + n / k % 64)

theorem toNat_tail (n k : Nat) : (tail n k).toNat = 0x80 + n / k % 64 :=
  toNat_ofNat_of_lt (by omega)

inductive Bytes (n : Nat) : List UInt8 → Prop
  | one (h : n < 0x80) : Bytes n [UInt8.ofNat n]
  | two (h : 0x80 ≤ n ∧ n < 0x800) : Bytes n [UInt8.ofNat (0xC0 + n / 64), tail n 1]
  | three (h : 0x800 ≤ n ∧ n < 0x10000) :
      Bytes n [UInt8.ofNat (0xE0 + n / 4096), tail n 64, tail n 1]
  | four (h : 0x10000 ≤ n) :
      Bytes n [UInt8.ofNat (0xF0 + n / 262144), tail n 4096, tail n 64, tail n 1]

theorem bytes_encodeChar (c : Char) : Bytes c.toNat (encodeChar c) := by
  unfold encodeChar
  simp only
  split
  · rename_i h
    exact .one h
  · split
    · rename_i h
      exact .two (by omega)
    · split
      · rename_i h
        exact .three (by omega)
      · exact .four (by omega)

/-- A scalar value is no surrogate and lies in one of the planes. -/
theorem scalar_value (c : Char) : c.toNat < 0xD800 ∨ 0xDFFF < c.toNat ∧ c.toNat < 0x110000 :=
  c.valid

section Steps

variable {b : UInt8} {n : Nat} (rest : List UInt8)

theorem chunksFrom_one (hb : b.toNat = n) (h : n < 0x80) :
    chunksFrom none (b :: rest) = .char (Char.ofNat n) :: chunksFrom none rest := by
  simp only [chunksFrom, first, hb, if_pos h, List.singleton_append]

theorem chunksFrom_two (hb : b.toNat = n) (h : 0xC2 ≤ n ∧ n < 0xE0) :
    chunksFrom none (b :: rest) = chunksFrom (some ⟨[b], 0, 0x80, 0xBF, n - 0xC0⟩) rest := by
  rw [chunksFrom, first, hb, if_neg (by omega), if_neg (by omega), if_pos h.2]
  rfl

theorem chunksFrom_three (hb : b.toNat = n) (h : 0xE0 ≤ n ∧ n < 0xF0) :
    chunksFrom none (b :: rest) =
      chunksFrom (some ⟨[b], 1, if n = 0xE0 then 0xA0 else 0x80,
        if n = 0xED then 0x9F else 0xBF, n - 0xE0⟩) rest := by
  rw [chunksFrom, first, hb, if_neg (by omega), if_neg (by omega), if_neg (by omega), if_pos h.2]
  rfl

theorem chunksFrom_four (hb : b.toNat = n) (h : 0xF0 ≤ n ∧ n < 0xF5) :
    chunksFrom none (b :: rest) =
      chunksFrom (some ⟨[b], 2, if n = 0xF0 then 0x90 else 0x80,
        if n = 0xF4 then 0x8F else 0xBF, n - 0xF0⟩) rest := by
  rw [chunksFrom, first, hb, if_neg (by omega), if_neg (by omega), if_neg (by omega),
    if_neg (by omega), if_pos h.2]
  rfl

variable {bytes : List UInt8} {owed low high code : Nat}

theorem chunksFrom_last (hb : b.toNat = n) (h : low ≤ n ∧ n ≤ high) :
    chunksFrom (some ⟨bytes, 0, low, high, code⟩) (b :: rest) =
      .char (Char.ofNat (code * 64 + (n - 0x80))) :: chunksFrom none rest := by
  simp only [chunksFrom, next, hb, if_pos h, if_true, List.singleton_append]

theorem chunksFrom_more (hb : b.toNat = n) (h : low ≤ n ∧ n ≤ high) :
    chunksFrom (some ⟨bytes, owed + 1, low, high, code⟩) (b :: rest) =
      chunksFrom (some ⟨bytes ++ [b], owed, 0x80, 0xBF, code * 64 + (n - 0x80)⟩) rest := by
  rw [chunksFrom, next, hb, if_pos h, if_neg (Nat.succ_ne_zero owed)]
  rfl

end Steps

/-- The bytes of a character are read as that character. -/
theorem chunksFrom_encodeChar (c : Char) (rest : List UInt8) :
    chunksFrom none (encodeChar c ++ rest) = .char c :: chunksFrom none rest := by
  have hscalar := scalar_value c
  have hchar : Char.ofNat c.toNat = c := Char.ofNat_toNat c
  have hbytes := bytes_encodeChar c
  generalize c.toNat = n at hscalar hchar hbytes
  generalize encodeChar c = bytes at hbytes
  cases hbytes with
  | one h =>
    rw [List.singleton_append, chunksFrom_one _ (toNat_ofNat_of_lt (by omega)) h, hchar]
  | two h =>
    have hcode : (0xC0 + n / 64 - 0xC0) * 64 + (0x80 + n / 1 % 64 - 0x80) = n := by omega
    simp only [List.cons_append, List.nil_append]
    rw [chunksFrom_two _ (toNat_ofNat_of_lt (by omega)) (by omega),
      chunksFrom_last _ (toNat_tail n 1) (by omega), hcode, hchar]
  | three h =>
    have hcode : ((0xE0 + n / 4096 - 0xE0) * 64 + (0x80 + n / 64 % 64 - 0x80)) * 64 +
        (0x80 + n / 1 % 64 - 0x80) = n := by omega
    simp only [List.cons_append, List.nil_append]
    rw [chunksFrom_three _ (toNat_ofNat_of_lt (by omega)) (by omega),
      chunksFrom_more _ (toNat_tail n 64) (by split <;> split <;> omega),
      chunksFrom_last _ (toNat_tail n 1) (by omega), hcode, hchar]
  | four h =>
    have hcode : (((0xF0 + n / 262144 - 0xF0) * 64 + (0x80 + n / 4096 % 64 - 0x80)) * 64 +
        (0x80 + n / 64 % 64 - 0x80)) * 64 + (0x80 + n / 1 % 64 - 0x80) = n := by omega
    simp only [List.cons_append, List.nil_append]
    rw [chunksFrom_four _ (toNat_ofNat_of_lt (by omega)) (by omega),
      chunksFrom_more _ (toNat_tail n 4096) (by split <;> split <;> omega),
      chunksFrom_more _ (toNat_tail n 64) (by omega),
      chunksFrom_last _ (toNat_tail n 1) (by omega), hcode, hchar]

/-- The bytes of a text are read as its characters. -/
theorem chunks_encode (text : Text) : chunks (encode text) = text.map .char := by
  induction text with
  | nil => rfl
  | cons c rest ih =>
    rw [encode, List.flatMap_cons, chunks, chunksFrom_encodeChar, List.map_cons]
    exact congrArg (Chunk.char c :: ·) ih

theorem encode_injective {a b : Text} (h : encode a = encode b) : a = b := by
  have hchunks := congrArg chunks h
  rw [chunks_encode, chunks_encode] at hchunks
  exact List.map_injective_iff.2 (fun _ _ => Chunk.char.inj) hchunks

end SourceTokens.Utf8
