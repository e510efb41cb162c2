import SourceTokens.Proofs.CharacterBytes

/-!
Texts by byte offsets. A text is cut at an offset that counts its bytes, which is a fault unless the
offset stands between two of its characters. Bytes are compared with ASCII characters only, and the
bytes of any other character are none of these, so a reader of bytes may stop inside a character
and still finds the ASCII characters where they are.
-/

namespace SourceTokens

namespace Utf8

theorem encode_cons (c : Char) (rest : Text) : encode (c :: rest) = encodeChar c ++ encode rest :=
  List.flatMap_cons

theorem encode_append (a b : Text) : encode (a ++ b) = encode a ++ encode b :=
  List.flatMap_append

theorem encodeChar_of_ascii {c : Char} (h : c.toNat < 0x80) :
    encodeChar c = [UInt8.ofNat c.toNat] := by
  rw [encodeChar]
  simp only [h, if_true]

theorem encodeChar_ne_nil (c : Char) : encodeChar c ≠ [] := by
  have hbytes := bytes_encodeChar c
  intro hnil
  rw [hnil] at hbytes
  cases hbytes

theorem length_encodeChar_pos (c : Char) : 0 < (encodeChar c).length :=
  List.length_pos_iff.2 (encodeChar_ne_nil c)

/-- Every byte of a character outside ASCII is outside ASCII. -/
theorem high_of_not_ascii {c : Char} (h : 0x80 ≤ c.toNat) :
    ∀ b ∈ encodeChar c, 0x80 ≤ b.toNat := by
  have hscalar := scalar_value c
  have hbytes := bytes_encodeChar c
  generalize c.toNat = n at h hscalar hbytes
  generalize encodeChar c = bytes at hbytes
  have htail : ∀ k, 0x80 ≤ (tail n k).toNat := by
    intro k
    rw [toNat_tail]
    exact Nat.le_add_right _ _
  cases hbytes with
  | one hone => omega
  | two htwo =>
    have hfirst := toNat_ofNat_of_lt (show 0xC0 + n / 64 < 256 by omega)
    simp only [List.mem_cons, List.not_mem_nil, or_false, forall_eq_or_imp, forall_eq]
    exact ⟨by omega, htail 1⟩
  | three hthree =>
    have hfirst := toNat_ofNat_of_lt (show 0xE0 + n / 4096 < 256 by omega)
    simp only [List.mem_cons, List.not_mem_nil, or_false, forall_eq_or_imp, forall_eq]
    exact ⟨by omega, htail 64, htail 1⟩
  | four hfour =>
    have hfirst := toNat_ofNat_of_lt (show 0xF0 + n / 262144 < 256 by omega)
    simp only [List.mem_cons, List.not_mem_nil, or_false, forall_eq_or_imp, forall_eq]
    exact ⟨by omega, htail 4096, htail 64, htail 1⟩

/-- Only the first byte of a character can be an ASCII character. -/
theorem high_of_mem_tail {c : Char} {b : UInt8} (h : b ∈ (encodeChar c).tail) :
    0x80 ≤ b.toNat := by
  rcases Nat.lt_or_ge c.toNat 0x80 with hlow | hhigh
  · rw [encodeChar_of_ascii hlow] at h
    cases h
  · exact high_of_not_ascii hhigh b (List.mem_of_mem_tail h)

end Utf8

namespace ByteLexer

open Utf8

/-- What a reader of bytes must never meet. -/
inductive Fault
  /-- An offset lies beyond the end of a text, or the end of a slice before its start. -/
  | outOfBounds
  /-- An offset lies inside a character. -/
  | insideCharacter
  /-- A step of the scan did not advance. -/
  | noProgress
  /-- No number was found where one begins. -/
  | noNumber
  /-- No block was open, not even that of the source itself. -/
  | noBlock
  /-- A counter was exhausted. -/
  | overflow
  deriving DecidableEq, Repr

def byteCount (text : Text) : Nat := (encode text).length

@[simp] theorem byteCount_nil : byteCount [] = 0 := rfl

theorem byteCount_cons (c : Char) (rest : Text) :
    byteCount (c :: rest) = (encodeChar c).length + byteCount rest := by
  rw [byteCount, encode_cons, List.length_append, byteCount]

theorem byteCount_append (a b : Text) : byteCount (a ++ b) = byteCount a + byteCount b := by
  simp only [byteCount, encode_append, List.length_append]

theorem byteCount_ascii {c : Char} (h : c.toNat < 0x80) (rest : Text) :
    byteCount (c :: rest) = 1 + byteCount rest := by
  rw [byteCount_cons, encodeChar_of_ascii h, List.length_singleton]

@[simp] theorem byteCount_singleton (c : Char) : byteCount [c] = (encodeChar c).length := by
  rw [byteCount_cons, byteCount_nil, Nat.add_zero]

theorem byteCount_pos {text : Text} (h : text ≠ []) : 0 < byteCount text := by
  obtain ⟨c, rest, rfl⟩ := List.exists_cons_of_ne_nil h
  rw [byteCount_cons]
  exact Nat.add_pos_left (length_encodeChar_pos c) _

def splitAt : Text → Nat → Except Fault (Text × Text)
  | text, 0 => .ok ([], text)
  | [], _ + 1 => .error .outOfBounds
  | c :: rest, n + 1 =>
    if n + 1 < (encodeChar c).length then .error .insideCharacter
    else (splitAt rest (n + 1 - (encodeChar c).length)).map fun (a, b) => (c :: a, b)

theorem splitAt_append (a b : Text) : splitAt (a ++ b) (byteCount a) = .ok (a, b) := by
  induction a with
  | nil => cases b <;> rfl
  | cons c rest ih =>
    have hpos := length_encodeChar_pos c
    obtain ⟨n, hn⟩ : ∃ n, byteCount (c :: rest) = n + 1 :=
      ⟨byteCount (c :: rest) - 1, by rw [byteCount_cons]; omega⟩
    have hcount : n + 1 - (encodeChar c).length = byteCount rest := by
      rw [← hn, byteCount_cons, Nat.add_sub_cancel_left]
    have hle : ¬ n + 1 < (encodeChar c).length := by
      rw [← hn, byteCount_cons]
      omega
    rw [hn, List.cons_append, splitAt, if_neg hle, hcount, ih]
    rfl

theorem append_of_splitAt {text a b : Text} {n : Nat} (h : splitAt text n = .ok (a, b)) :
    a ++ b = text ∧ byteCount a = n := by
  fun_induction splitAt text n generalizing a b with
  | case1 text =>
    cases h
    exact ⟨rfl, rfl⟩
  | case2 => cases h
  | case3 => cases h
  | case4 c rest n hle ih =>
    cases hrest : splitAt rest (n + 1 - (encodeChar c).length) with
    | error e =>
      rw [hrest] at h
      cases h
    | ok r =>
      obtain ⟨before, after⟩ := r
      rw [hrest] at h
      cases h
      obtain ⟨happend, hcount⟩ := ih hrest
      refine ⟨congrArg (c :: ·) happend, ?_⟩
      rw [byteCount_cons, hcount]
      omega

def slice (text : Text) (start stop : Nat) : Except Fault Text := do
  let (_, rest) ← splitAt text start
  if stop < start then .error .outOfBounds
  let (body, _) ← splitAt rest (stop - start)
  return body

def takeBytes? (text : Text) (n : Nat) : Option Text := (splitAt text n).toOption.map Prod.fst

theorem takeBytes?_eq_some_iff {text a : Text} {n : Nat} :
    takeBytes? text n = some a ↔ a <+: text ∧ byteCount a = n := by
  constructor
  · intro h
    obtain ⟨⟨before, after⟩, hsplit, rfl⟩ := Option.map_eq_some_iff.1 h
    cases hresult : splitAt text n with
    | error e =>
      rw [hresult] at hsplit
      cases hsplit
    | ok r =>
      rw [hresult] at hsplit
      cases hsplit
      obtain ⟨happend, hcount⟩ := append_of_splitAt hresult
      exact ⟨⟨after, happend⟩, hcount⟩
  · rintro ⟨⟨after, rfl⟩, rfl⟩
    rw [takeBytes?, splitAt_append]
    rfl

def asciiOf? (b : UInt8) : Option Char :=
  if b.toNat < 0x80 then some (Char.ofNat b.toNat) else none

def asciiAt (bytes : List UInt8) (i : Nat) : Option Char := bytes[i]?.bind asciiOf?

theorem lt_of_asciiAt {bytes : List UInt8} {i : Nat} {c : Char} (h : asciiAt bytes i = some c) :
    i < bytes.length := by
  obtain ⟨b, hb, -⟩ := Option.bind_eq_some_iff.1 h
  exact (List.getElem?_eq_some_iff.1 hb).1

def RestAt (bytes : List UInt8) (i : Nat) (rest : Text) : Prop := bytes.drop i = encode rest

section RestAt

variable {bytes : List UInt8} {i : Nat} {rest : Text}

theorem RestAt.skip {a : Text} (h : RestAt bytes i (a ++ rest)) :
    RestAt bytes (i + byteCount a) rest := by
  rw [RestAt, encode_append] at h
  rw [RestAt, ← List.drop_drop, h, byteCount, List.drop_left]

theorem RestAt.behind {c : Char} (h : RestAt bytes i (c :: rest)) :
    RestAt bytes (i + (encodeChar c).length) rest := by
  rw [← byteCount_singleton]
  exact RestAt.skip h

theorem RestAt.next {c : Char} (h : RestAt bytes i (c :: rest)) (hc : c.toNat < 0x80) :
    RestAt bytes (i + 1) rest := by
  have hbehind := h.behind
  rwa [encodeChar_of_ascii hc] at hbehind

theorem RestAt.length_eq (h : RestAt bytes i rest) : bytes.length - i = byteCount rest := by
  rw [byteCount, ← h, List.length_drop]

theorem RestAt.lt_length {c : Char} (h : RestAt bytes i (c :: rest)) : i < bytes.length := by
  have hlength := h.length_eq
  have hpos := byteCount_pos (List.cons_ne_nil c rest)
  omega

theorem RestAt.not_lt_length (h : RestAt bytes i []) : ¬ i < bytes.length := by
  have hlength : bytes.length - i = 0 := h.length_eq
  omega

theorem RestAt.getElem?_eq (h : RestAt bytes i rest) : bytes[i]? = (encode rest).head? := by
  rw [← h, List.head?_drop]

/-- The ASCII character at an offset is the first one of the text there. -/
theorem RestAt.asciiAt_eq (h : RestAt bytes i rest) :
    asciiAt bytes i = rest.head?.filter (·.toNat < 0x80) := by
  rw [asciiAt, h.getElem?_eq]
  cases rest with
  | nil => rfl
  | cons c later =>
    rw [encode_cons, List.head?_append_of_ne_nil _ (encodeChar_ne_nil c), List.head?_cons,
      Option.filter_some]
    rcases Nat.lt_or_ge c.toNat 0x80 with hlow | hhigh
    · have hbyte : (UInt8.ofNat c.toNat).toNat = c.toNat := toNat_ofNat_of_lt (by omega)
      rw [encodeChar_of_ascii hlow, List.head?_cons, Option.bind_some, asciiOf?, hbyte,
        if_pos hlow, if_pos (decide_eq_true hlow), Char.ofNat_toNat]
    · have hhead := high_of_not_ascii hhigh _ (List.head_mem (encodeChar_ne_nil c))
      rw [List.head?_eq_some_head (encodeChar_ne_nil c), Option.bind_some, asciiOf?,
        if_neg (Nat.not_lt.2 hhead), if_neg (by simpa using hhigh)]

/-- As many bytes as characters stand before an offset in a text, as long as these are ASCII. -/
theorem RestAt.drop {n : Nat} (h : RestAt bytes i rest)
    (hascii : ∀ c ∈ rest.take n, c.toNat < 0x80) : RestAt bytes (i + n) (rest.drop n) := by
  induction n generalizing i rest with
  | zero => exact h
  | succ n ih =>
    cases rest with
    | nil =>
      rw [RestAt, ← List.drop_drop, h]
      rfl
    | cons c later =>
      rw [List.take_succ_cons, List.forall_mem_cons] at hascii
      have hbehind := ih (h.next hascii.1) hascii.2
      rwa [Nat.add_assoc, Nat.add_comm 1] at hbehind

/-- The bytes from an offset on show the ASCII characters at the beginning of a text. Behind these
they may be anything that is not ASCII, so a reader that stops there takes them for the text. -/
def Shows (bytes : List UInt8) (i : Nat) (rest : Text) : Prop :=
  ∀ n, (∀ c ∈ rest.take n, c.toNat < 0x80) →
    asciiAt bytes (i + n) = rest[n]?.filter (·.toNat < 0x80)

theorem RestAt.shows (h : RestAt bytes i rest) : Shows bytes i rest := by
  intro n hascii
  rw [(h.drop hascii).asciiAt_eq, List.head?_drop]

theorem Shows.asciiAt_eq (h : Shows bytes i rest) :
    asciiAt bytes i = rest.head?.filter (·.toNat < 0x80) := by
  rw [List.head?_eq_getElem?]
  exact h 0 (by simp)

theorem Shows.asciiAt_eq_some_iff (h : Shows bytes i rest) {a : Char} (ha : a.toNat < 0x80) :
    asciiAt bytes i = some a ↔ rest.head? = some a := by
  rw [h.asciiAt_eq, Option.filter_eq_some_iff]
  exact and_iff_left (decide_eq_true ha)

theorem Shows.any_asciiAt (h : Shows bytes i rest) {p : Char → Bool}
    (hp : ∀ c, p c → c.toNat < 0x80) : (asciiAt bytes i).any p = rest.head?.any p := by
  rw [h.asciiAt_eq]
  cases rest.head? with
  | none => rfl
  | some c =>
    rw [Option.filter_some]
    split
    · rfl
    · rename_i hhigh
      rw [Option.any_none, Option.any_some]
      exact (Bool.eq_false_iff.2 fun hc => hhigh (decide_eq_true (hp c hc))).symm

theorem Shows.drop {n : Nat} (h : Shows bytes i rest)
    (hascii : ∀ c ∈ rest.take n, c.toNat < 0x80) : Shows bytes (i + n) (rest.drop n) := by
  intro m hmore
  rw [Nat.add_assoc, List.getElem?_drop]
  refine h (n + m) ?_
  rw [List.take_add, List.forall_mem_append]
  exact ⟨hascii, hmore⟩

theorem Shows.next {c : Char} (h : Shows bytes i (c :: rest)) (hc : c.toNat < 0x80) :
    Shows bytes (i + 1) rest :=
  h.drop (n := 1) (by simpa using hc)

theorem RestAt.asciiAt_eq_some_iff (h : RestAt bytes i rest) {a : Char} (ha : a.toNat < 0x80) :
    asciiAt bytes i = some a ↔ rest.head? = some a :=
  h.shows.asciiAt_eq_some_iff ha

theorem RestAt.any_asciiAt (h : RestAt bytes i rest) {p : Char → Bool}
    (hp : ∀ c, p c → c.toNat < 0x80) : (asciiAt bytes i).any p = rest.head?.any p :=
  h.shows.any_asciiAt hp

/-- A reader that goes on from every byte outside ASCII goes on to the end of a character from
behind its first byte. -/
theorem RestAt.skip_tail {α : Type} {f : Nat → α} {c : Char}
    (hf : ∀ j b, bytes[j]? = some b → 0x80 ≤ b.toNat → f j = f (j + 1))
    (h : RestAt bytes i (c :: rest)) : f (i + 1) = f (i + (encodeChar c).length) := by
  have hskip : ∀ (high after : List UInt8) (j : Nat), bytes.drop j = high ++ after →
      (∀ b ∈ high, 0x80 ≤ b.toNat) → f j = f (j + high.length) := by
    intro high
    induction high with
    | nil => exact fun _ _ _ _ => rfl
    | cons b more ih =>
      intro after j hdrop hhigh
      have hget : bytes[j]? = some b := by
        rw [← List.head?_drop, hdrop]
        rfl
      have hnext : bytes.drop (j + 1) = more ++ after := by
        rw [← List.drop_drop, hdrop]
        rfl
      rw [hf j b hget (hhigh b List.mem_cons_self),
        ih after (j + 1) hnext fun b hb => hhigh b (List.mem_cons_of_mem _ hb),
        List.length_cons, Nat.add_assoc, Nat.add_comm 1]
  obtain ⟨b, tail, htail⟩ := List.exists_cons_of_ne_nil (encodeChar_ne_nil c)
  rw [RestAt, encode_cons, htail] at h
  have hdrop : bytes.drop (i + 1) = tail ++ encode rest := by
    rw [← List.drop_drop, h]
    rfl
  rw [htail, hskip tail _ (i + 1) hdrop, List.length_cons, Nat.add_assoc, Nat.add_comm 1]
  intro d hd
  exact high_of_mem_tail (c := c) (by rwa [htail])

end RestAt

structure At (line : Text) (pos : Nat) (before rest : Text) : Prop where
  append_eq : before ++ rest = line
  count_eq : byteCount before = pos

namespace At

variable {line before rest : Text} {pos : Nat}

theorem start (line : Text) : At line 0 [] line := ⟨rfl, rfl⟩

theorem advance {a : Text} (h : At line pos before (a ++ rest)) :
    At line (pos + byteCount a) (before ++ a) rest where
  append_eq := by rw [List.append_assoc, h.append_eq]
  count_eq := by rw [byteCount_append, h.count_eq]

theorem behind {c : Char} (h : At line pos before (c :: rest)) :
    At line (pos + (encodeChar c).length) (before ++ [c]) rest := by
  rw [← byteCount_singleton]
  exact advance h

theorem next {c : Char} (h : At line pos before (c :: rest)) (hc : c.toNat < 0x80) :
    At line (pos + 1) (before ++ [c]) rest := by
  have hbehind := h.behind
  rwa [encodeChar_of_ascii hc] at hbehind

theorem splitAt_eq (h : At line pos before rest) : splitAt line pos = .ok (before, rest) := by
  rw [← h.append_eq, ← h.count_eq, splitAt_append]

theorem restAt (h : At line pos before rest) : RestAt (encode line) pos rest := by
  rw [RestAt, ← h.append_eq, ← h.count_eq, encode_append, byteCount, List.drop_left]

theorem count_line (h : At line pos before rest) : byteCount line = pos + byteCount rest := by
  rw [← h.append_eq, byteCount_append, h.count_eq]

theorem lt_count {c : Char} (h : At line pos before (c :: rest)) : pos < byteCount line :=
  h.restAt.lt_length

theorem not_lt_count (h : At line pos before []) : ¬ pos < byteCount line :=
  h.restAt.not_lt_length

/-- A text that stands at an offset is what is sliced there. -/
theorem slice_eq {a : Text} (h : At line pos before (a ++ rest)) :
    slice line pos (pos + byteCount a) = .ok a := by
  have hlt : ¬ pos + byteCount a < pos := Nat.not_lt.2 (Nat.le_add_right _ _)
  rw [slice, h.splitAt_eq]
  simp only [bind, Except.bind, pure, Except.pure, if_neg hlt, Nat.add_sub_cancel_left,
    splitAt_append]

end At

end ByteLexer

end SourceTokens
