import Mathlib.Data.List.Basic
import Mathlib.Data.List.TakeWhile
import SourceTokens.Json.Number

/-!
How numbers are spelled in documents: a sign, a whole part without a zero in front of other digits,
perhaps a point with digits and perhaps an exponent. A text is read as a number exactly if it
spells that number, and every number is written as a text that spells it.
-/

namespace SourceTokens.Json.Number

def IsDigits (text : Text) : Prop := text ≠ [] ∧ ∀ c ∈ text, c.isDigit

def NoDigit (text : Text) : Prop := ∀ c ∈ text.head?, c.isDigit = false

structure WholeSpelled (text : Text) (n : Nat) : Prop where
  digits : IsDigits text
  noZero : text.head? = some '0' → text.length = 1
  value : n = Nat.ofDigitChars 10 text 0

inductive FractionSpelled : Text → List (Fin 10) → Prop
  | absent : FractionSpelled [] []
  | present {text : Text} (h : IsDigits text) :
      FractionSpelled ('.' :: text) (text.map digitOf)

inductive ExponentSpelled : Text → Option Int → Prop
  | absent : ExponentSpelled [] none
  | plain {mark : Char} {text : Text} (hmark : mark = 'e' ∨ mark = 'E') (h : IsDigits text) :
      ExponentSpelled (mark :: text) (some (Nat.ofDigitChars 10 text 0))
  | plus {mark : Char} {text : Text} (hmark : mark = 'e' ∨ mark = 'E') (h : IsDigits text) :
      ExponentSpelled (mark :: '+' :: text) (some (Nat.ofDigitChars 10 text 0))
  | minus {mark : Char} {text : Text} (hmark : mark = 'e' ∨ mark = 'E') (h : IsDigits text) :
      ExponentSpelled (mark :: '-' :: text) (some (-(Nat.ofDigitChars 10 text 0 : Int)))

inductive Spelled : Text → Number → Prop
  | parts {negative : Bool} {w f e : Text} {whole : Nat} {fraction : List (Fin 10)}
      {exponent : Option Int} (hwhole : WholeSpelled w whole) (hfraction : FractionSpelled f fraction)
      (hexponent : ExponentSpelled e exponent) :
      Spelled ((if negative then ['-'] else []) ++ (w ++ (f ++ e)))
        ⟨negative, whole, fraction, exponent⟩

theorem noDigit_nil : NoDigit [] := by
  intro c hc
  cases hc

theorem noDigit_cons {c : Char} (rest : Text) (h : c.isDigit = false) : NoDigit (c :: rest) := by
  intro d hd
  cases hd
  exact h

theorem val_digitOf {c : Char} (h : c.isDigit) : (digitOf c).val = c.toNat - '0'.toNat := by
  rw [Char.isDigit_iff_toNat] at h
  have hzero : '0'.toNat = 48 := rfl
  have hnine : '9'.toNat = 57 := rfl
  rw [digitOf, Fin.val_ofNat]
  exact Nat.mod_eq_of_lt (by omega)

theorem appendDigits_map_digitOf {text : Text} (n : Nat) (h : ∀ c ∈ text, c.isDigit) :
    appendDigits n (text.map digitOf) = Nat.ofDigitChars 10 text n := by
  induction text generalizing n with
  | nil => rfl
  | cons c rest ih =>
    obtain ⟨hc, hrest⟩ := List.forall_mem_cons.1 h
    rw [Nat.ofDigitChars_cons, ← ih _ hrest, ← val_digitOf hc, Nat.mul_comm]
    rfl

theorem readDigits?_eq_some_iff {text rest : Text} {digits : List (Fin 10)} :
    readDigits? text = some (digits, rest) ↔ ∃ front, IsDigits front ∧ NoDigit rest ∧
      text = front ++ rest ∧ digits = front.map digitOf := by
  simp only [readDigits?, spanDigits, List.isEmpty_iff, List.map_eq_nil_iff]
  constructor
  · intro h
    split at h
    · cases h
    · rename_i hne
      cases h
      refine ⟨text.takeWhile Char.isDigit, ⟨hne, ?_⟩, ?_, ?_, rfl⟩
      · exact List.all_eq_true.1 List.all_takeWhile
      · intro c hc
        have hhead := List.head?_dropWhile_not Char.isDigit text
        rw [Option.mem_def.1 hc] at hhead
        exact hhead
      · exact List.takeWhile_append_dropWhile.symm
  · rintro ⟨front, ⟨hne, hdigits⟩, hrest, rfl, rfl⟩
    have htake : rest.takeWhile Char.isDigit = [] ∧ rest.dropWhile Char.isDigit = rest := by
      cases rest with
      | nil => exact ⟨rfl, rfl⟩
      | cons c rest =>
        have hc := hrest c rfl
        simp [hc]
    rw [List.takeWhile_append_of_pos hdigits, List.dropWhile_append_of_pos hdigits, htake.1,
      htake.2, List.append_nil, if_neg hne]

theorem readWhole?_eq_some_iff {text rest : Text} {n : Nat} :
    readWhole? text = some (n, rest) ↔
      ∃ front, WholeSpelled front n ∧ NoDigit rest ∧ text = front ++ rest := by
  have hzero : ∀ {front : Text}, IsDigits front →
      ((front.map digitOf).head? = some 0 ↔ front.head? = some '0') := by
    intro front hfront
    cases front with
    | nil => exact absurd rfl hfront.1
    | cons c rest =>
      have hc := hfront.2 c (List.mem_cons_self ..)
      simp only [List.map_cons, List.head?_cons, Option.some.injEq]
      constructor
      · intro h
        have hval := val_digitOf hc
        rw [h] at hval
        rw [Char.isDigit_iff_toNat] at hc
        have hnat : c.toNat = '0'.toNat := by
          change 0 = _ at hval
          omega
        exact Char.toNat_inj.1 hnat
      · rintro rfl
        rfl
  rw [readWhole?]
  constructor
  · intro h
    obtain ⟨⟨digits, behind⟩, hread, h⟩ := Option.bind_eq_some_iff.1 h
    obtain ⟨front, hfront, hbehind, rfl, rfl⟩ := readDigits?_eq_some_iff.1 hread
    simp only [hzero hfront, List.length_map] at h
    split at h
    · cases h
    · rename_i hone
      cases h
      refine ⟨front, ⟨hfront, ?_, ?_⟩, hbehind, rfl⟩
      · intro hhead
        by_contra hlength
        exact hone ⟨hhead, hlength⟩
      · exact appendDigits_map_digitOf 0 hfront.2
  · rintro ⟨front, hfront, hrest, rfl⟩
    have hread := readDigits?_eq_some_iff.2 ⟨front, hfront.digits, hrest, rfl, rfl⟩
    have hone : ¬ (front.head? = some '0' ∧ front.length ≠ 1) :=
      fun h => h.2 (hfront.noZero h.1)
    rw [hread]
    simp only [Option.bind_eq_bind, Option.bind_some, hzero hfront.digits, List.length_map,
      if_neg hone, hfront.value, appendDigits_map_digitOf 0 hfront.digits.2]

theorem fraction_of_read {text rest : Text} {digits : List (Fin 10)}
    (h : readFraction? text = some (digits, rest)) :
    ∃ front, FractionSpelled front digits ∧ text = front ++ rest := by
  unfold readFraction? at h
  split at h
  · obtain ⟨front, hfront, -, rfl, rfl⟩ := readDigits?_eq_some_iff.1 h
    exact ⟨'.' :: front, .present hfront, rfl⟩
  · cases h
    exact ⟨[], .absent, rfl⟩

theorem readFraction?_append {front rest : Text} {digits : List (Fin 10)}
    (h : FractionSpelled front digits) (hdigit : NoDigit rest) (hpoint : rest.head? ≠ some '.') :
    readFraction? (front ++ rest) = some (digits, rest) := by
  cases h with
  | present h => exact readDigits?_eq_some_iff.2 ⟨_, h, hdigit, rfl, rfl⟩
  | absent =>
    unfold readFraction?
    split
    · rename_i hsplit
      rw [List.nil_append] at hsplit
      rw [hsplit] at hpoint
      exact absurd rfl hpoint
    · rfl

theorem exponent_of_read {text rest : Text} {exponent : Option Int}
    (h : readExponent? text = some (exponent, rest)) :
    ∃ front, ExponentSpelled front exponent ∧ text = front ++ rest := by
  unfold readExponent? at h
  split at h
  · cases h
    exact ⟨[], .absent, rfl⟩
  · rename_i mark behind
    split at h
    · rename_i hmark
      obtain ⟨⟨n, after⟩, hread, h⟩ := Option.map_eq_some_iff.1 h
      cases h
      unfold readSignedDigits? at hread
      split at hread
      all_goals
        obtain ⟨⟨digits, after⟩, hdigits, hread⟩ := Option.map_eq_some_iff.1 hread
        obtain ⟨front, hfront, -, rfl, rfl⟩ := readDigits?_eq_some_iff.1 hdigits
        cases hread
        rw [appendDigits_map_digitOf 0 hfront.2]
      · exact ⟨mark :: '-' :: front, .minus hmark hfront, rfl⟩
      · exact ⟨mark :: '+' :: front, .plus hmark hfront, rfl⟩
      · exact ⟨mark :: front, .plain hmark hfront, rfl⟩
    · cases h
      exact ⟨[], .absent, rfl⟩

theorem readSignedDigits?_digits {text : Text} (h : IsDigits text) :
    readSignedDigits? text = some ((Nat.ofDigitChars 10 text 0 : Int), []) := by
  have hread := readDigits?_eq_some_iff.2 ⟨text, h, noDigit_nil, (List.append_nil text).symm, rfl⟩
  have hvalue := appendDigits_map_digitOf 0 h.2
  unfold readSignedDigits?
  split
  · exact absurd (h.2 '-' (List.mem_cons_self ..)) (by decide)
  · exact absurd (h.2 '+' (List.mem_cons_self ..)) (by decide)
  · simp only [hread, Option.map_some, hvalue]

theorem readExponent?_of_spelled {text : Text} {exponent : Option Int}
    (h : ExponentSpelled text exponent) : readExponent? text = some (exponent, []) := by
  have hsigned : ∀ {digits : Text}, IsDigits digits →
      readDigits? digits = some (digits.map digitOf, []) := fun hdigits =>
    readDigits?_eq_some_iff.2 ⟨_, hdigits, noDigit_nil, (List.append_nil _).symm, rfl⟩
  cases h with
  | absent => rfl
  | plain hmark h => rw [readExponent?, if_pos hmark, readSignedDigits?_digits h, Option.map_some]
  | plus hmark h =>
    simp only [readExponent?, if_pos hmark, readSignedDigits?, hsigned h, Option.map_some,
      appendDigits_map_digitOf 0 h.2]
  | minus hmark h =>
    simp only [readExponent?, if_pos hmark, readSignedDigits?, hsigned h, Option.map_some,
      appendDigits_map_digitOf 0 h.2]

theorem ExponentSpelled.bounds {text : Text} {exponent : Option Int}
    (h : ExponentSpelled text exponent) : NoDigit text ∧ text.head? ≠ some '.' := by
  cases h with
  | absent => exact ⟨noDigit_nil, by simp⟩
  | plain hmark | plus hmark | minus hmark =>
    rcases hmark with rfl | rfl <;> exact ⟨noDigit_cons _ rfl, by simp⟩

theorem FractionSpelled.bounds {text behind : Text} {fraction : List (Fin 10)}
    (h : FractionSpelled text fraction) (hbehind : NoDigit behind) : NoDigit (text ++ behind) := by
  cases h with
  | absent => exact hbehind
  | present => exact noDigit_cons _ rfl

theorem readUnsigned?_eq_some_iff {negative : Bool} {text : Text} {n : Number} :
    readUnsigned? negative text = some n ↔ ∃ w f e, WholeSpelled w n.whole ∧
      FractionSpelled f n.fraction ∧ ExponentSpelled e n.exponent ∧
        text = w ++ (f ++ e) ∧ n.negative = negative := by
  rw [readUnsigned?]
  constructor
  · intro h
    obtain ⟨⟨whole, rest⟩, hwhole, hrest⟩ := Option.bind_eq_some_iff.1 h
    obtain ⟨⟨fraction, rest'⟩, hfraction, hrest'⟩ := Option.bind_eq_some_iff.1 hrest
    obtain ⟨⟨exponent, last⟩, hexponent, hlast⟩ := Option.bind_eq_some_iff.1 hrest'
    obtain ⟨w, hw, -, rfl⟩ := readWhole?_eq_some_iff.1 hwhole
    obtain ⟨f, hf, rfl⟩ := fraction_of_read hfraction
    obtain ⟨e, he, rfl⟩ := exponent_of_read hexponent
    simp only at hlast
    split at hlast
    · rename_i hend
      cases hlast
      rw [List.isEmpty_iff.1 hend, List.append_nil]
      exact ⟨w, f, e, hw, hf, he, rfl, rfl⟩
    · cases hlast
  · rintro ⟨w, f, e, hw, hf, he, rfl, rfl⟩
    obtain ⟨hdigit, hpoint⟩ := he.bounds
    rw [readWhole?_eq_some_iff.2 ⟨w, hw, hf.bounds hdigit, rfl⟩]
    simp only [Option.bind_eq_bind, Option.bind_some, readFraction?_append hf hdigit hpoint,
      readExponent?_of_spelled he, List.isEmpty_nil, if_true]

/-- A text is read as a number exactly if it spells it. -/
theorem read?_eq_some_iff {text : Text} {n : Number} : read? text = some n ↔ Spelled text n := by
  obtain ⟨negative, whole, fraction, exponent⟩ := n
  unfold read?
  constructor
  · intro h
    split at h
    all_goals
      obtain ⟨w, f, e, hw, hf, he, htext, hnegative⟩ := readUnsigned?_eq_some_iff.1 h
      cases hnegative
    · rw [htext]
      exact @Spelled.parts true _ _ _ _ _ _ hw hf he
    · rw [htext]
      exact @Spelled.parts false _ _ _ _ _ _ hw hf he
  · intro h
    cases h with
    | @parts _ w f e _ _ _ hw hf he =>
      cases negative with
      | true => exact readUnsigned?_eq_some_iff.2 ⟨w, f, e, hw, hf, he, rfl, rfl⟩
      | false =>
        split
        · rename_i rest hsplit
          exfalso
          obtain ⟨c, digits, rfl⟩ := List.exists_cons_of_ne_nil hw.digits.1
          obtain ⟨rfl, -⟩ := List.cons.inj hsplit
          exact absurd (hw.digits.2 '-' (List.mem_cons_self ..)) (by decide)
        · exact readUnsigned?_eq_some_iff.2 ⟨w, f, e, hw, hf, he, rfl, rfl⟩

/-- A number starts with its sign or with a digit. -/
theorem Spelled.exists_cons {text : Text} {n : Number} (h : Spelled text n) :
    ∃ c rest, text = c :: rest ∧ (c = '-' ∨ c.isDigit) := by
  obtain @⟨negative, w, f, e, _, _, _, ⟨⟨hne, hdigits⟩, _, _⟩, _, _⟩ := h
  obtain ⟨c, w, rfl⟩ := List.exists_cons_of_ne_nil hne
  cases negative
  · exact ⟨c, w ++ (f ++ e), rfl, .inr (hdigits c List.mem_cons_self)⟩
  · exact ⟨'-', _, rfl, .inl rfl⟩

/-- A number has no other characters than digits and marks. -/
theorem Spelled.isDigit_or_mem {text : Text} {n : Number} (h : Spelled text n) {c : Char}
    (hc : c ∈ text) : c.isDigit ∨ c ∈ ['-', '+', '.', 'e', 'E'] := by
  obtain @⟨negative, w, f, e, _, _, _, hwhole, hfraction, hexponent⟩ := h
  simp only [List.mem_append] at hc
  obtain hc | hc | hc | hc := hc
  · cases negative
    · cases hc
    · obtain rfl := List.mem_singleton.1 hc
      exact .inr (by decide)
  · exact .inl (hwhole.digits.2 c hc)
  · cases hfraction with
    | absent => cases hc
    | present hdigits =>
      obtain rfl | hc := List.mem_cons.1 hc
      · exact .inr (by decide)
      · exact .inl (hdigits.2 c hc)
  · cases hexponent with
    | absent => cases hc
    | plain hmark hdigits =>
      obtain rfl | hc := List.mem_cons.1 hc
      · exact .inr (by obtain rfl | rfl := hmark <;> decide)
      · exact .inl (hdigits.2 c hc)
    | plus hmark hdigits =>
      obtain rfl | rfl | hc := by simpa using hc
      · exact .inr (by obtain rfl | rfl := hmark <;> decide)
      · exact .inr (by decide)
      · exact .inl (hdigits.2 c hc)
    | minus hmark hdigits =>
      obtain rfl | rfl | hc := by simpa using hc
      · exact .inr (by obtain rfl | rfl := hmark <;> decide)
      · exact .inr (by decide)
      · exact .inl (hdigits.2 c hc)

theorem isDigits_ofNat (n : Nat) : IsDigits (Text.ofNat n) :=
  ⟨Nat.toDigits_ne_nil, fun _ hc => Nat.isDigit_of_mem_toDigits (by decide) (by decide) hc⟩

/-- No digit stands behind a zero at the front. -/
theorem head?_ofNat (n : Nat) (h : n ≠ 0) : (Text.ofNat n).head? ≠ some '0' := by
  unfold Text.ofNat
  induction n using Nat.strongRecOn with
  | ind n ih =>
    by_cases hn : n < 10
    · rw [Nat.toDigits_of_lt_base hn]
      have hdigit := Nat.toNat_digitChar_of_lt_ten hn
      intro hzero
      rw [Option.some.inj hzero] at hdigit
      change 48 = 48 + n at hdigit
      omega
    · rw [Nat.toDigits_of_base_le (by decide) (Nat.not_lt.1 hn),
        List.head?_append_of_ne_nil _ Nat.toDigits_ne_nil]
      exact ih (n / 10) (by omega) (by omega)

theorem wholeSpelled_ofNat (n : Nat) : WholeSpelled (Text.ofNat n) n where
  digits := isDigits_ofNat n
  noZero := by
    intro hzero
    by_cases hn : n = 0
    · subst hn
      rfl
    · exact absurd hzero (head?_ofNat n hn)
  value := Nat.ofDigitChars_ten_toDigits.symm

theorem fractionSpelled_digits (digits : List (Fin 10)) :
    FractionSpelled (if digits.isEmpty then [] else '.' :: digits.map digitChar) digits := by
  have hdigit : ∀ d : Fin 10, digitOf (digitChar d) = d ∧ (digitChar d).isDigit := by decide
  cases digits with
  | nil => exact .absent
  | cons d rest =>
    have hdigits : IsDigits ((d :: rest).map digitChar) := by
      refine ⟨by simp, fun c hc => ?_⟩
      obtain ⟨e, -, rfl⟩ := List.mem_map.1 hc
      exact (hdigit e).2
    have hback : ((d :: rest).map digitChar).map digitOf = d :: rest := by
      rw [List.map_map]
      exact List.map_id'' (fun e => (hdigit e).1) _
    have hspelled := FractionSpelled.present hdigits
    rwa [hback] at hspelled

theorem exponentSpelled_signed (e : Int) : ExponentSpelled ('e' :: signedText e) (some e) := by
  have hvalue : Nat.ofDigitChars 10 (Text.ofNat e.natAbs) 0 = e.natAbs :=
    Nat.ofDigitChars_ten_toDigits
  unfold signedText
  split
  · have hspelled := ExponentSpelled.minus (Or.inl rfl) (isDigits_ofNat e.natAbs)
    rwa [hvalue, show -(e.natAbs : Int) = e by omega] at hspelled
  · have hspelled := ExponentSpelled.plain (Or.inl rfl) (isDigits_ofNat e.natAbs)
    rwa [hvalue, show (e.natAbs : Int) = e by omega] at hspelled

/-- Every number is written as one of its texts. -/
theorem spelled_text (n : Number) : Spelled n.text n := by
  obtain ⟨negative, whole, fraction, exponent⟩ := n
  simp only [text, List.append_assoc]
  refine .parts (wholeSpelled_ofNat whole) (fractionSpelled_digits fraction) ?_
  cases exponent with
  | none => exact .absent
  | some e => exact exponentSpelled_signed e

end SourceTokens.Json.Number
