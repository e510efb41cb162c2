import Mathlib.Data.List.Nodup
import SourceTokens.Json.Record
import SourceTokens.Proofs.JsonNumbers

/-!
Records and what a complete reading asks of them. The fields of a record are found under their
names, those that are absent included. A record is readable if its fields are, and so is a whole
number that has no more bits than the significand of a double.
-/

namespace SourceTokens.Json

def field? (member : Text × Option Json) : Option (Option Text × Json) :=
  member.2.map fun value => (some member.1, value)

theorem record_eq (members : List (Text × Option Json)) :
    record members = .object (members.filterMap field?) := rfl

section Fields

variable {members : List (Text × Option Json)}

theorem filter_key {key : Text} {value : Option Json} (hnodup : (members.map Prod.fst).Nodup)
    (h : (key, value) ∈ members) : members.filter (fun m => m.1 == key) = [(key, value)] := by
  induction members with
  | nil => cases h
  | cons member rest ih =>
    obtain ⟨hhead, hrest⟩ := List.nodup_cons.1 hnodup
    rcases List.mem_cons.1 h with rfl | h
    · have hnone : rest.filter (fun m => m.1 == key) = [] := by
        refine List.filter_eq_nil_iff.2 fun m hm hkey => hhead ?_
        exact List.mem_map.2 ⟨m, hm, beq_iff_eq.1 hkey⟩
      rw [List.filter_cons_of_pos (by simp), hnone]
    · have hne : member.1 ≠ key := by
        intro heq
        rw [heq] at hhead
        exact hhead (List.mem_map_of_mem h)
      rw [List.filter_cons_of_neg (by simpa using hne), ih hrest h]

/-- A field is found under its name, or found to be absent. -/
theorem only?_fields (hnodup : (members.map Prod.fst).Nodup) {key : Text} {value : Option Json}
    (h : (key, value) ∈ members) : only? (members.filterMap field?) key = some value := by
  have hfilter : (members.filterMap field?).filter (fun member => member.1 == some key) =
      (members.filter fun member => member.1 == key).filterMap field? := by
    rw [List.filter_filterMap, List.filterMap_filter]
    refine List.filterMap_congr fun member _ => ?_
    obtain ⟨name, value⟩ := member
    cases value <;> simp [field?, Option.filter]
  rw [only?, hfilter, filter_key hnodup h]
  cases value <;> rfl

/-- A list is read back if each of its items is. -/
theorem mapM_map_eq_some_iff {α β γ : Type} {f : β → Option γ} {g : α → β} {value : α → γ}
    {p : α → Prop} {list : List α} {values : List γ}
    (h : ∀ a ∈ list, ∀ v, f (g a) = some v ↔ p a ∧ v = value a) :
    (list.map g).mapM f = some values ↔ (∀ a ∈ list, p a) ∧ values = list.map value := by
  induction list generalizing values with
  | nil => simp [eq_comm]
  | cons a rest ih =>
    obtain ⟨ha, hrest⟩ := List.forall_mem_cons.1 h
    simp only [List.map_cons, List.mapM_cons, Option.bind_eq_bind, Option.bind_eq_some_iff,
      Option.pure_def, Option.some.injEq, ha, ih hrest, List.forall_mem_cons]
    constructor
    · rintro ⟨_, ⟨hp, rfl⟩, _, ⟨hps, rfl⟩, rfl⟩
      exact ⟨⟨hp, hps⟩, rfl⟩
    · rintro ⟨⟨hp, hps⟩, rfl⟩
      exact ⟨_, ⟨hp, rfl⟩, _, ⟨hps, rfl⟩, rfl⟩

/-- The fields of a record are found under their names. -/
theorem fields?_record (hnodup : (members.map Prod.fst).Nodup) :
    (record members).fields? (members.map Prod.fst) = some (members.map Prod.snd) := by
  have hkeys : (members.filterMap field?).all fun member => member.1.isSome := by
    rw [List.all_eq_true]
    intro member hmember
    obtain ⟨field, -, hfield⟩ := List.mem_filterMap.1 hmember
    obtain ⟨v, -, rfl⟩ := Option.map_eq_some_iff.1 hfield
    rfl
  rw [record_eq, fields?, if_pos hkeys]
  refine (mapM_map_eq_some_iff (p := fun _ => True) fun member hmember value => ?_).2
    ⟨fun _ _ => trivial, rfl⟩
  rw [only?_fields hnodup hmember, true_and, Option.some.injEq, eq_comm]

end Fields

section Readable

variable {limit : Nat}

theorem areReadable_eq_all (limit : Nat) (items : List Json) :
    areReadable limit items = items.all (isReadable limit) := by
  induction items with
  | nil => rfl
  | cons item rest ih => rw [areReadable, ih, List.all_cons]

theorem haveReadableMembers_eq_all (limit : Nat) (members : List (Option Text × Json)) :
    haveReadableMembers limit members =
      members.all fun member => member.1.isSome && member.2.isReadable limit := by
  induction members with
  | nil => rfl
  | cons member rest ih => rw [haveReadableMembers, ih, List.all_cons]

theorem isReadable_array {items : List Json} (h : ∀ item ∈ items, item.isReadable limit) :
    (Json.array items).isReadable (limit + 1) := by
  rw [isReadable, areReadable_eq_all]
  simpa using h

/-- A record is readable one level above its fields. -/
theorem isReadable_record {members : List (Text × Option Json)}
    (h : ∀ member ∈ members, ∀ value ∈ member.2, value.isReadable limit) :
    (record members).isReadable (limit + 1) := by
  rw [record_eq, isReadable, haveReadableMembers_eq_all, Bool.and_eq_true, List.all_eq_true]
  refine ⟨by simp, fun member hmember => ?_⟩
  obtain ⟨field, hfield, hvalue⟩ := List.mem_filterMap.1 hmember
  obtain ⟨v, hv, rfl⟩ := Option.map_eq_some_iff.1 hvalue
  exact h field hfield v hv

end Readable

namespace Number

theorem le_appendDigits (n : Nat) (digits : List (Fin 10)) : n ≤ appendDigits n digits := by
  induction digits generalizing n with
  | nil => exact Nat.le_refl n
  | cons d rest ih =>
    have hrest := ih (n * 10 + d.val)
    change n ≤ appendDigits (n * 10 + d.val) rest
    omega

/-- No digit is given up as long as the value stays small. -/
theorem keepDigits_eq {n : Nat} {digits : List (Fin 10)}
    (h : appendDigits n digits < Nat.pow 2 64) :
    keepDigits n digits = (appendDigits n digits, digits.length) := by
  induction digits generalizing n with
  | nil => rfl
  | cons d rest ih =>
    have hd := Nat.lt_of_le_of_lt (le_appendDigits (n * 10 + d.val) rest) h
    rw [keepDigits]
    simp only
    rw [if_pos hd, ih h]
    rfl

theorem scaled_ofNat {n : Nat} (h : n < Nat.pow 2 64) : (ofNat n).scaled = (n, 0) := by
  have hvalue : appendDigits 0 (ofNat n).wholeDigits = n := by
    have hdigits := appendDigits_map_digitOf 0 (isDigits_ofNat n).2
    rwa [Text.ofNat, Nat.ofDigitChars_ten_toDigits] at hdigits
  have hkeep := @keepDigits_eq 0 (ofNat n).wholeDigits (by rwa [hvalue])
  rw [hvalue] at hkeep
  rw [scaled, hkeep]
  simp [ofNat, keepDigits]

theorem roundTo53Bits_eq {n : Nat} (h : n < Nat.pow 2 53) : roundTo53Bits n = n := by
  have hlog : n.log2 - 52 = 0 := by
    by_cases hn : n = 0
    · subst hn
      rfl
    · have hlt := (Nat.log2_lt hn).2 h
      omega
  unfold roundTo53Bits
  rw [hlog]
  simp [Nat.mod_one]

/-- A whole number of at most 53 bits fits a double. -/
theorem fitsDouble_ofNat {n : Nat} (h : n < Nat.pow 2 53) : (ofNat n).fitsDouble := by
  have hone : roundTo53Bits (Nat.pow 10 (Int.toNat 0)) = 1 := rfl
  rw [fitsDouble, scaled_ofNat (h.trans (by decide))]
  simp only
  split
  · rfl
  · rw [if_neg (by decide), roundTo53Bits_eq h, hone, Nat.mul_one, decide_eq_true_eq]
    exact h.trans (by decide +kernel)

end Number

end SourceTokens.Json
