import Mathlib.Order.Bounds.Basic
import SourceTokens.Proofs.NumberGrammar

/-!
Numbers end at the longest literal. What is measured at the front of a text, and what is found by
offsets in bytes that need not be those of any text, is the longest word of the grammar of literals
there, and nothing is found exactly where no word of the grammar begins.
-/

namespace SourceTokens

namespace Number

variable {word text : Text} {n : Nat}

theorem begins_iff_take : Begins literal n text ↔
    n ≤ text.length ∧ text.take n ∈ literal.matches' := by
  constructor
  · rintro ⟨word, rest, hword, rfl, rfl⟩
    rw [List.take_left, List.length_append]
    exact ⟨Nat.le_add_right _ _, hword⟩
  · rintro ⟨hle, hword⟩
    exact ⟨_, text.drop n, hword, List.take_append_drop n text, List.length_take_of_le hle⟩

theorem Begins.le_length (h : Begins literal n text) : n ≤ length text := by
  obtain ⟨word, rest, hword, rfl, rfl⟩ := h
  exact Number.le_length hword rest

theorem Begins.ne_zero (h : Begins literal n text) : n ≠ 0 := by
  obtain ⟨word, rest, hword, -, rfl⟩ := h
  intro hnil
  rw [List.length_eq_zero_iff.1 hnil] at hword
  exact nil_not_mem_literal hword

theorem length_eq_zero_iff (text : Text) : length text = 0 ↔ ∀ n, ¬ Begins literal n text := by
  constructor
  · intro hnone n hbegins
    exact hbegins.ne_zero (Nat.le_zero.1 (hnone ▸ hbegins.le_length))
  · exact fun hnone => by_contra fun hsome => hnone _ (begins_length hsome)

theorem isGreatest_iff (text : Text) (n : Nat) :
    IsGreatest {k | Begins literal k text} n ↔ length text = n ∧ n ≠ 0 := by
  constructor
  · rintro ⟨hbegins, hgreatest⟩
    have hle := hbegins.le_length
    have hne := hbegins.ne_zero
    exact ⟨Nat.le_antisymm (hgreatest (begins_length (by omega))) hle, hne⟩
  · rintro ⟨rfl, hne⟩
    exact ⟨begins_length hne, fun k hk => hk.le_length⟩

end Number

namespace ByteLexer

open Number (Begins literal)

/-- Every byte taken for the character of the same number. -/
def characters (bytes : List UInt8) : Text := bytes.map fun b => Char.ofNat b.toNat

theorem toNat_character (b : UInt8) : (Char.ofNat b.toNat).toNat = b.toNat := by
  have hlt := b.toNat_lt
  rw [Char.ofNat, dif_pos (.inl (by omega))]
  rfl

/-- Bytes show what they are when each is taken for a character. -/
theorem shows_characters (bytes : List UInt8) (i : Nat) :
    Shows bytes i (characters (bytes.drop i)) := by
  intro n _
  rw [characters, List.getElem?_map, List.getElem?_drop, asciiAt]
  cases bytes[i + n]? with
  | none => rfl
  | some b =>
    rw [Option.map_some, Option.filter_some, toNat_character, Option.bind_some, asciiOf?]
    simp

def literalEnds (bytes : List UInt8) (i : Nat) : Set Nat :=
  {j | i ≤ j ∧ j ≤ bytes.length ∧ characters (bytes.extract i j) ∈ literal.matches'}

theorem mem_literalEnds {bytes : List UInt8} {i j : Nat} :
    j ∈ literalEnds bytes i ↔ ∃ n, Begins literal n (characters (bytes.drop i)) ∧ i + n = j := by
  have hword : ∀ n, (characters (bytes.drop i)).take n = characters (bytes.extract i (i + n)) := by
    intro n
    rw [List.extract_eq_take_drop, Nat.add_sub_cancel_left, characters, characters, List.map_take]
  have hlength : (characters (bytes.drop i)).length = bytes.length - i := by
    rw [characters, List.length_map, List.length_drop]
  constructor
  · rintro ⟨hstart, hstop, hmem⟩
    obtain ⟨n, rfl⟩ := Nat.exists_eq_add_of_le hstart
    refine ⟨n, Number.begins_iff_take.2 ⟨by omega, ?_⟩, rfl⟩
    rwa [hword]
  · rintro ⟨n, hbegins, rfl⟩
    have hne := hbegins.ne_zero
    obtain ⟨hle, hmem⟩ := Number.begins_iff_take.1 hbegins
    refine ⟨Nat.le_add_right _ _, by omega, ?_⟩
    rwa [← hword]

theorem numberEnd_eq_none_iff (bytes : List UInt8) (i : Nat) :
    numberEnd bytes i = none ↔ literalEnds bytes i = ∅ := by
  rw [numberEnd_eq (shows_characters bytes i), ends_eq_none_iff, Number.length_eq_zero_iff,
    Set.eq_empty_iff_forall_notMem]
  simp only [mem_literalEnds, not_exists, not_and]
  exact ⟨fun h _ n hn => absurd hn (h n), fun h n hn => h (i + n) n hn rfl⟩

theorem numberEnd_eq_some_iff (bytes : List UInt8) (i j : Nat) :
    numberEnd bytes i = some j ↔ IsGreatest (literalEnds bytes i) j := by
  rw [numberEnd_eq (shows_characters bytes i)]
  constructor
  · intro h
    obtain ⟨hne, rfl⟩ := ends_eq_some_iff.1 h
    obtain ⟨hbegins, hgreatest⟩ := (Number.isGreatest_iff _ _).2 ⟨rfl, hne⟩
    refine ⟨mem_literalEnds.2 ⟨_, hbegins, rfl⟩, fun j hj => ?_⟩
    obtain ⟨n, hn, rfl⟩ := mem_literalEnds.1 hj
    exact Nat.add_le_add_left (hgreatest hn) i
  · rintro ⟨hmem, hgreatest⟩
    obtain ⟨n, hn, rfl⟩ := mem_literalEnds.1 hmem
    obtain ⟨hlength, hne⟩ := (Number.isGreatest_iff _ n).1 ⟨hn, fun k hk =>
      Nat.le_of_add_le_add_left (hgreatest (mem_literalEnds.2 ⟨k, hk, rfl⟩))⟩
    rw [hlength]
    exact ends_of_ne hne

/-- In a text and in bytes alike a number is the longest word of the grammar that begins there. -/
theorem longest_literal :
    (∀ text : Text,
      (Number.length text = 0 ↔ ∀ n, ¬ Begins literal n text) ∧
      ∀ n, Number.length text = n ∧ n ≠ 0 ↔ IsGreatest {k | Begins literal k text} n) ∧
    ∀ (bytes : List UInt8) (i : Nat),
      (numberEnd bytes i = none ↔ literalEnds bytes i = ∅) ∧
      ∀ j, numberEnd bytes i = some j ↔ IsGreatest (literalEnds bytes i) j :=
  ⟨fun text => ⟨Number.length_eq_zero_iff text, fun n => (Number.isGreatest_iff text n).symm⟩,
    fun bytes i => ⟨numberEnd_eq_none_iff bytes i, numberEnd_eq_some_iff bytes i⟩⟩

end ByteLexer

end SourceTokens
