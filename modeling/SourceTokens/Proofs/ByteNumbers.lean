import SourceTokens.Proofs.ByteOffsets
import SourceTokens.Proofs.Locality

/-!
Numeric literals by byte offsets. Each reader here takes the offset where a form of literal may
begin and gives the offset behind it. Literals are made of ASCII characters, so on the bytes of a
text the readers agree with those that measure the text, and a number is found wherever a digit, or
a point before a digit, stands.
-/

namespace SourceTokens

namespace Number

theorem pointFloat_of_point {text later : Text} (h : text.drop (digits text) = '.' :: later) :
    pointFloat text =
      if digits text = 0 ∧ digits later = 0 then 0
      else digits text + 1 + digits later + exponent (later.drop (digits later)) := by
  rw [pointFloat]
  simp only [h]

theorem pointFloat_of_not_point {text : Text} (h : (text.drop (digits text)).head? ≠ some '.') :
    pointFloat text = 0 := by
  unfold pointFloat
  simp only
  split
  · rename_i later heq
    exact absurd (by rw [heq]; rfl) h
  · rfl

theorem ascii_of_isPart {c : Char} (h : isPart c) : c.toNat < 0x80 := by
  have hbound : ∀ last : Char, c.val ≤ last.val → last.toNat < 0x80 → c.toNat < 0x80 :=
    fun last hle hlast => Nat.lt_of_le_of_lt (UInt32.le_iff_toNat_le.1 hle) hlast
  simp only [isPart, Char.isAlphanum, Bool.or_eq_true, beq_iff_eq] at h
  rcases h with ((((halpha | hdigit) | rfl) | rfl) | rfl) | rfl
  · rcases Bool.or_eq_true_iff.1 halpha with hupper | hlower
    · have hrange : c.val ≥ 'A'.val ∧ c.val ≤ 'Z'.val := of_decide_eq_true hupper
      exact hbound 'Z' hrange.2 (by decide)
    · exact hbound 'z' (of_decide_eq_true (Bool.and_eq_true_iff.1 hlower).2) (by decide)
  · exact hbound '9' (of_decide_eq_true (Bool.and_eq_true_iff.1 hdigit).2) (by decide)
  all_goals decide

end Number

namespace ByteLexer

open Number (isPart ascii_of_isPart isPart_of_isDigit)

def runEnd (isDigit : Char → Bool) (bytes : List UInt8) (j : Nat) : Nat :=
  if hdigit : (asciiAt bytes j).any isDigit then runEnd isDigit bytes (j + 1)
  else if hmark : asciiAt bytes j = some '_' ∧ (asciiAt bytes (j + 1)).any isDigit then
    runEnd isDigit bytes (j + 2)
  else j
termination_by bytes.length - j
decreasing_by
  · obtain ⟨c, hc, -⟩ := Option.any_eq_true _ _ |>.1 hdigit
    have hlt := lt_of_asciiAt hc
    omega
  · have hlt := lt_of_asciiAt hmark.1
    omega

def digitsEnd (bytes : List UInt8) (i : Nat) : Option Nat :=
  if (asciiAt bytes i).any Char.isDigit then some (runEnd Char.isDigit bytes (i + 1)) else none

def exponentEnd (bytes : List UInt8) (i : Nat) : Option Nat :=
  if asciiAt bytes i = some 'e' ∨ asciiAt bytes i = some 'E' then
    if asciiAt bytes (i + 1) = some '+' ∨ asciiAt bytes (i + 1) = some '-' then
      digitsEnd bytes (i + 2)
    else digitsEnd bytes (i + 1)
  else none

def pointFloatEnd (bytes : List UInt8) (i : Nat) : Option Nat :=
  match digitsEnd bytes i with
  | some j =>
    if asciiAt bytes j = some '.' then
      let stop := (digitsEnd bytes (j + 1)).getD (j + 1)
      some ((exponentEnd bytes stop).getD stop)
    else none
  | none =>
    if asciiAt bytes i = some '.' then
      (digitsEnd bytes (i + 1)).map fun stop => (exponentEnd bytes stop).getD stop
    else none

def floatEnd (bytes : List UInt8) (i : Nat) : Option Nat :=
  pointFloatEnd bytes i <|> (digitsEnd bytes i).bind (exponentEnd bytes)

def imaginaryEnd (bytes : List UInt8) (j : Nat) : Option Nat :=
  if asciiAt bytes j = some 'j' ∨ asciiAt bytes j = some 'J' then some (j + 1) else none

def basedEnd (letter : Char) (isDigit : Char → Bool) (bytes : List UInt8) (i : Nat) :
    Option Nat :=
  if asciiAt bytes i = some '0' ∧ (asciiAt bytes (i + 1)).any (·.toLower == letter) then
    let stop := runEnd isDigit bytes (i + 2)
    if i + 2 < stop then some stop else none
  else none

def decimalEnd (bytes : List UInt8) (i : Nat) : Option Nat :=
  if asciiAt bytes i = some '0' then some (runEnd (· == '0') bytes (i + 1))
  else digitsEnd bytes i

def numberEnd (bytes : List UInt8) (i : Nat) : Option Nat :=
  (digitsEnd bytes i).bind (imaginaryEnd bytes) <|>
  (floatEnd bytes i).bind (imaginaryEnd bytes) <|>
  floatEnd bytes i <|>
  basedEnd 'x' Number.isHexDigit bytes i <|>
  basedEnd 'b' Number.isBinaryDigit bytes i <|>
  basedEnd 'o' Number.isOctalDigit bytes i <|>
  decimalEnd bytes i

/-- The offset behind a literal of the given length, where zero stands for none. -/
def ends (i n : Nat) : Option Nat := if n = 0 then none else some (i + n)

theorem ends_succ (i n : Nat) : ends i (n + 1) = some (i + (n + 1)) := if_neg (Nat.succ_ne_zero n)

theorem ends_of_ne {i n : Nat} (h : n ≠ 0) : ends i n = some (i + n) := if_neg h

theorem ends_eq_none_iff {i n : Nat} : ends i n = none ↔ n = 0 := by
  by_cases hn : n = 0 <;> simp [ends, hn]

theorem ends_eq_some_iff {i n j : Nat} : ends i n = some j ↔ n ≠ 0 ∧ i + n = j := by
  by_cases hn : n = 0 <;> simp [ends, hn]

theorem ends_firstPresent_cons (i n : Nat) (later : List Nat) :
    ends i (Number.firstPresent (n :: later)) =
      (ends i n <|> ends i (Number.firstPresent later)) := by
  rw [Number.firstPresent]
  split
  · rename_i hn
    subst hn
    rfl
  · rename_i hn
    rw [ends_of_ne hn]
    rfl

/-- A literal that is missing ends where it would begin. -/
theorem getD_ends (i n : Nat) : (ends i n).getD i = i + n := by
  rw [ends]
  split
  · rename_i hn
    rw [hn]
    rfl
  · rfl

section Agreement

variable {bytes : List UInt8} {i : Nat} {rest : Text}

/-- Behind a part of a number its bytes show what stands behind it in the text. -/
theorem Shows.behind {n : Nat} (h : Shows bytes i rest) (hn : Number.Within rest n) :
    Shows bytes (i + n) (rest.drop n) :=
  h.drop fun c hc => ascii_of_isPart (hn c hc)

theorem runEnd_eq {isDigit : Char → Bool} (hdigit : ∀ c, isDigit c → isPart c)
    (hmark : isDigit '_' = false) (h : Shows bytes i rest) :
    runEnd isDigit bytes i = i + Number.run isDigit rest := by
  have hascii : ∀ c, isDigit c → c.toNat < 0x80 := fun c hc => ascii_of_isPart (hdigit c hc)
  fun_induction Number.run isDigit rest generalizing i with
  | case1 d rest hd ih =>
    have hnext : Shows bytes (i + 1) (d :: rest) := h.next (by decide)
    have hbehind : Shows bytes (i + 2) rest := hnext.next (hascii d hd)
    rw [runEnd, h.any_asciiAt hascii, hnext.any_asciiAt hascii,
      (h.asciiAt_eq_some_iff (by decide)).2 rfl, dif_neg (by simp [hmark]), dif_pos ⟨rfl, hd⟩,
      ih hbehind]
    omega
  | case2 d rest hd =>
    have hnext : Shows bytes (i + 1) (d :: rest) := h.next (by decide)
    rw [runEnd, h.any_asciiAt hascii, hnext.any_asciiAt hascii, dif_neg (by simp [hmark]),
      dif_neg (by simp [hd])]
    rfl
  | case3 c rest hne hc ih =>
    have hhead : (asciiAt bytes i).any isDigit := (h.any_asciiAt hascii).trans hc
    rw [runEnd, dif_pos hhead, ih (h.next (hascii c hc))]
    omega
  | case4 c rest hne hc =>
    have hstop : ¬ (asciiAt bytes i = some '_' ∧ (asciiAt bytes (i + 1)).any isDigit) := by
      rintro ⟨hunderscore, hnext⟩
      obtain rfl := Option.some.inj ((h.asciiAt_eq_some_iff (by decide)).1 hunderscore)
      rw [Shows.any_asciiAt (h.next (by decide)) hascii] at hnext
      cases rest with
      | nil => cases hnext
      | cons d later => exact hne d later rfl rfl
    have hhead : (asciiAt bytes i).any isDigit = false :=
      (h.any_asciiAt hascii).trans (Bool.eq_false_iff.2 hc)
    rw [runEnd, dif_neg (Bool.eq_false_iff.1 hhead), dif_neg hstop]
    rfl
  | case5 =>
    have hnone : asciiAt bytes i = none := h.asciiAt_eq
    rw [runEnd, hnone, dif_neg (by simp), dif_neg (by simp)]
    rfl

theorem digitsEnd_eq (h : Shows bytes i rest) :
    digitsEnd bytes i = ends i (Number.digits rest) := by
  rw [digitsEnd, h.any_asciiAt fun c hc => ascii_of_isPart (isPart_of_isDigit hc)]
  cases rest with
  | nil => rfl
  | cons c later =>
    rw [Number.digits, List.head?_cons, Option.any_some]
    split
    · rename_i hc
      have hnext := h.next (ascii_of_isPart (isPart_of_isDigit hc))
      have hrun := runEnd_eq (fun _ => isPart_of_isDigit) rfl hnext
      rw [hrun, ends_succ, Nat.add_assoc, Nat.add_comm 1]
    · rfl

theorem getD_digitsEnd (h : Shows bytes i rest) :
    (digitsEnd bytes i).getD i = i + Number.digits rest := by
  rw [digitsEnd_eq h, getD_ends]

/-- A sign is passed over where there is one. -/
theorem signed_digitsEnd (h : Shows bytes i rest) :
    (if asciiAt bytes i = some '+' ∨ asciiAt bytes i = some '-' then digitsEnd bytes (i + 1)
      else digitsEnd bytes i) = digitsEnd bytes (i + Number.sign rest) := by
  have hsign : Number.sign rest =
      if rest.head? = some '+' ∨ rest.head? = some '-' then 1 else 0 := by
    unfold Number.sign
    split
    · rfl
    · rfl
    · rename_i hplus hminus
      refine (if_neg ?_).symm
      rintro (hd | hd)
      · obtain ⟨later, hlater⟩ := List.head?_eq_some_iff.1 hd
        exact hplus later hlater
      · obtain ⟨later, hlater⟩ := List.head?_eq_some_iff.1 hd
        exact hminus later hlater
  rw [hsign]
  simp only [h.asciiAt_eq_some_iff (show '+'.toNat < 0x80 by decide),
    h.asciiAt_eq_some_iff (show '-'.toNat < 0x80 by decide)]
  split <;> rfl

theorem exponentEnd_eq (h : Shows bytes i rest) :
    exponentEnd bytes i = ends i (Number.exponent rest) := by
  unfold exponentEnd
  simp only [h.asciiAt_eq_some_iff (show 'e'.toNat < 0x80 by decide),
    h.asciiAt_eq_some_iff (show 'E'.toNat < 0x80 by decide)]
  cases rest with
  | nil => rfl
  | cons c later =>
    simp only [Number.exponent, List.head?_cons, Option.some.injEq]
    split
    · rename_i hc
      have hnext : Shows bytes (i + 1) later := h.next (by rcases hc with rfl | rfl <;> decide)
      rw [signed_digitsEnd hnext, digitsEnd_eq (hnext.behind (Number.sign_within later)), ends]
      split
      · rfl
      · rename_i hpower
        rw [ends_of_ne (by omega)]
        congr 1
        omega
    · rfl

theorem getD_exponentEnd (h : Shows bytes i rest) :
    (exponentEnd bytes i).getD i = i + Number.exponent rest := by
  rw [exponentEnd_eq h, getD_ends]

theorem pointFloatEnd_eq (h : Shows bytes i rest) :
    pointFloatEnd bytes i = ends i (Number.pointFloat rest) := by
  have hwhole := h.behind (Number.digits_within rest)
  have hpoint : '.'.toNat < 0x80 := by decide
  by_cases hdot : (rest.drop (Number.digits rest)).head? = some '.'
  · obtain ⟨later, hlater⟩ := List.head?_eq_some_iff.1 hdot
    have hnext : Shows bytes (i + Number.digits rest + 1) later := by
      rw [hlater] at hwhole
      exact hwhole.next hpoint
    have hbehind := hnext.behind (Number.digits_within later)
    rw [Number.pointFloat_of_point hlater, pointFloatEnd, digitsEnd_eq h, ends]
    by_cases hzero : Number.digits rest = 0
    · simp only [hzero, List.drop_zero, Nat.add_zero] at hdot hnext hbehind
      simp only [hzero, if_true, h.asciiAt_eq_some_iff hpoint, hdot, true_and, digitsEnd_eq hnext]
      by_cases hfraction : Number.digits later = 0
      · rw [if_pos hfraction, hfraction]
        rfl
      · rw [if_neg hfraction, ends_of_ne hfraction, Option.map_some, getD_exponentEnd hbehind,
          ends_of_ne (by omega)]
        congr 1
        omega
    · simp only [hzero, if_false, hwhole.asciiAt_eq_some_iff hpoint, hdot, if_true, false_and,
        getD_digitsEnd hnext, getD_exponentEnd hbehind]
      rw [ends_of_ne (by omega)]
      congr 1
      omega
  · rw [Number.pointFloat_of_not_point hdot, pointFloatEnd, digitsEnd_eq h, ends]
    by_cases hzero : Number.digits rest = 0
    · simp only [hzero, List.drop_zero] at hdot
      simp only [hzero, if_true, h.asciiAt_eq_some_iff hpoint, hdot, if_false]
      rfl
    · simp only [hzero, if_false, hwhole.asciiAt_eq_some_iff hpoint, hdot]
      rfl

theorem floatEnd_eq (h : Shows bytes i rest) : floatEnd bytes i = ends i (Number.float rest) := by
  have hexponent : (digitsEnd bytes i).bind (exponentEnd bytes) =
      ends i (Number.exponentFloat rest) := by
    have hbehind := h.behind (Number.digits_within rest)
    unfold Number.exponentFloat
    simp only
    by_cases hwhole : Number.digits rest = 0
    · rw [digitsEnd_eq h, if_pos (.inl hwhole), hwhole]
      rfl
    · rw [digitsEnd_eq h, ends_of_ne hwhole, Option.bind_some, exponentEnd_eq hbehind]
      split
      · rename_i hnone
        rw [hnone.resolve_left hwhole]
        rfl
      · rename_i hpower
        rw [ends_of_ne fun hzero => hpower (.inr hzero), ends_of_ne (by omega), Nat.add_assoc]
  rw [floatEnd, pointFloatEnd_eq h, hexponent, Number.float, ends_firstPresent_cons,
    ends_firstPresent_cons]
  cases ends i (Number.pointFloat rest) <;> cases ends i (Number.exponentFloat rest) <;> rfl

theorem bind_imaginaryEnd {n : Nat} (h : Shows bytes i rest) (hn : Number.Within rest n) :
    (ends i n).bind (imaginaryEnd bytes) = ends i (Number.imaginary n rest) := by
  have hbehind := h.behind hn
  unfold Number.imaginary
  by_cases hzero : n = 0
  · rw [hzero, ends, if_pos rfl]
    split <;> simp [ends]
  · rw [ends_of_ne hzero, Option.bind_some, imaginaryEnd]
    simp only [hbehind.asciiAt_eq_some_iff (show 'j'.toNat < 0x80 by decide),
      hbehind.asciiAt_eq_some_iff (show 'J'.toNat < 0x80 by decide)]
    cases rest.drop n with
    | nil => rfl
    | cons c later =>
      simp only [List.head?_cons, Option.some.injEq, hzero, ne_eq, not_false_iff, true_and]
      split <;> rfl

theorem basedEnd_eq {letter : Char} {isDigit : Char → Bool} (hletter : letter.isAlpha)
    (hdigit : ∀ c, isDigit c → isPart c) (hmark : isDigit '_' = false) (h : Shows bytes i rest) :
    basedEnd letter isDigit bytes i = ends i (Number.based letter isDigit rest) := by
  have hlower : ∀ c : Char, (c.toLower == letter) = true → c.toNat < 0x80 := fun c hc =>
    ascii_of_isPart (Number.isPart_of_toLower hletter (beq_iff_eq.1 hc))
  by_cases hprefix : asciiAt bytes i = some '0' ∧ (asciiAt bytes (i + 1)).any (·.toLower == letter)
  · rw [basedEnd, if_pos hprefix]
    obtain ⟨hzero, hmarker⟩ := hprefix
    obtain ⟨after, rfl⟩ :=
      List.head?_eq_some_iff.1 ((h.asciiAt_eq_some_iff (by decide)).1 hzero)
    have hnext : Shows bytes (i + 1) after := h.next (by decide)
    rw [hnext.any_asciiAt hlower] at hmarker
    cases after with
    | nil => cases hmarker
    | cons c later =>
      have hc : c.toLower = letter := beq_iff_eq.1 hmarker
      have hrun := runEnd_eq hdigit hmark (hnext.next (hlower c hmarker))
      simp only [Number.based, hc, true_and, hrun]
      by_cases hvalue : Number.run isDigit later = 0
      · rw [if_neg (by omega), if_neg (fun hne => hne hvalue)]
        rfl
      · rw [if_pos (by omega), if_pos hvalue, ends_of_ne (by omega)]
        congr 1
        omega
  · rw [basedEnd, if_neg hprefix]
    unfold Number.based
    split
    · rename_i c later
      have hnext : Shows bytes (i + 1) (c :: later) := h.next (by decide)
      rw [h.asciiAt_eq_some_iff (by decide), hnext.any_asciiAt hlower] at hprefix
      rw [if_neg]
      · rfl
      · exact fun hboth => hprefix ⟨rfl, beq_iff_eq.2 hboth.1⟩
    · rfl

theorem decimalEnd_eq (h : Shows bytes i rest) :
    decimalEnd bytes i = ends i (Number.decimal rest) := by
  unfold decimalEnd
  simp only [h.asciiAt_eq_some_iff (show '0'.toNat < 0x80 by decide), digitsEnd_eq h]
  cases rest with
  | nil => rfl
  | cons c later =>
    simp only [Number.decimal, List.head?_cons, Option.some.injEq]
    split
    · rename_i hc
      subst hc
      have hzero : ∀ d : Char, (d == '0') = true → isPart d := by
        intro d hd
        rw [beq_iff_eq.1 hd]
        rfl
      rw [runEnd_eq hzero rfl (h.next (by decide)), ends_succ]
      congr 1
      omega
    · rfl

/-- On the bytes of a text numbers end where they do in the text. -/
theorem numberEnd_eq (h : Shows bytes i rest) :
    numberEnd bytes i = ends i (Number.length rest) := by
  have hfloat : Number.Within rest (Number.float rest) := by
    refine Number.firstPresent_within ?_
    simp [Number.pointFloat_within, Number.exponentFloat_within]
  simp only [Number.length, ends_firstPresent_cons]
  rw [numberEnd, digitsEnd_eq h, floatEnd_eq h, bind_imaginaryEnd h (Number.digits_within rest),
    bind_imaginaryEnd h hfloat,
    basedEnd_eq (by decide) (fun _ => Number.isPart_of_isHexDigit) rfl h,
    basedEnd_eq (by decide) (fun _ => Number.isPart_of_isBinaryDigit) rfl h,
    basedEnd_eq (by decide) (fun _ => Number.isPart_of_isOctalDigit) rfl h, decimalEnd_eq h]
  cases ends i (Number.decimal rest) <;> rfl

end Agreement

end ByteLexer

end SourceTokens
