import Mathlib.Computability.RegularExpressions
import Mathlib.Data.Bool.AllAny
import SourceTokens.Proofs.ByteNumbers

/-!
The grammar of numeric literals and its longest words. The forms of literals overlap and are tried
in order, each by readers that go as far as they can. Behind a word of the grammar a reader goes on
only with what can continue a run of digits, so the first form that is present is also the longest
one, in a text and in the bytes from any offset on.
-/

namespace SourceTokens

namespace Number

open RegularExpression (char)

section Grammar

def oneOf (chars : Text) : RegularExpression Char := chars.foldr (fun c other => char c + other) 0

def optional (e : RegularExpression Char) : RegularExpression Char := 1 + e

def spacedDigit (digits : Text) : RegularExpression Char := optional (char '_') * oneOf digits

def binaryDigits : Text := ['0', '1']

def octalDigits : Text := ['0', '1', '2', '3', '4', '5', '6', '7']

def decimalDigits : Text := octalDigits ++ ['8', '9']

def hexDigits : Text :=
  decimalDigits ++ ['a', 'b', 'c', 'd', 'e', 'f', 'A', 'B', 'C', 'D', 'E', 'F']

def digitPart : RegularExpression Char := oneOf decimalDigits * (spacedDigit decimalDigits).star

def exponentPart : RegularExpression Char :=
  oneOf ['e', 'E'] * optional (oneOf ['+', '-']) * digitPart

def floatForm : RegularExpression Char :=
  digitPart * char '.' * optional digitPart * optional exponentPart +
    char '.' * digitPart * optional exponentPart + digitPart * exponentPart

def imaginaryForm : RegularExpression Char :=
  digitPart * oneOf ['j', 'J'] + floatForm * oneOf ['j', 'J']

def basedForm (letters digits : Text) : RegularExpression Char :=
  char '0' * oneOf letters * (spacedDigit digits * (spacedDigit digits).star)

def prefixedForm : RegularExpression Char :=
  basedForm ['x', 'X'] hexDigits + basedForm ['b', 'B'] binaryDigits +
    basedForm ['o', 'O'] octalDigits

def decimalForm : RegularExpression Char :=
  char '0' * (spacedDigit ['0']).star +
    oneOf ['1', '2', '3', '4', '5', '6', '7', '8', '9'] * (spacedDigit decimalDigits).star

def integerForm : RegularExpression Char := prefixedForm + decimalForm

def literal : RegularExpression Char := imaginaryForm + floatForm + integerForm

end Grammar

variable {e f : RegularExpression Char} {word rest text chars : Text} {c : Char} {n m : Nat}

theorem mem_oneOf : word ∈ (oneOf chars).matches' ↔ ∃ c ∈ chars, word = [c] := by
  induction chars with
  | nil =>
    simp only [List.not_mem_nil, false_and, exists_false, iff_false]
    exact fun h => h
  | cons d later ih =>
    have hcons : word ∈ (oneOf (d :: later)).matches' ↔
        word = [d] ∨ word ∈ (oneOf later).matches' := Iff.rfl
    rw [hcons, ih]
    simp only [List.mem_cons, exists_eq_or_imp]

theorem mem_optional : word ∈ (optional e).matches' ↔ word = [] ∨ word ∈ e.matches' := Iff.rfl

theorem mem_mul : word ∈ (e * f).matches' ↔
    ∃ a ∈ e.matches', ∃ b ∈ f.matches', a ++ b = word := Iff.rfl

theorem mem_add : word ∈ (e + f).matches' ↔ word ∈ e.matches' ∨ word ∈ f.matches' := Iff.rfl

theorem mem_char : word ∈ (char c).matches' ↔ word = [c] := Iff.rfl

theorem mem_spacedDigit : word ∈ (spacedDigit chars).matches' ↔
    ∃ c ∈ chars, word = [c] ∨ word = ['_', c] := by
  simp only [spacedDigit, mem_mul, mem_optional, mem_char, mem_oneOf]
  constructor
  · rintro ⟨mark, rfl | rfl, _, ⟨c, hc, rfl⟩, rfl⟩
    · exact ⟨c, hc, .inl rfl⟩
    · exact ⟨c, hc, .inr rfl⟩
  · rintro ⟨c, hc, rfl | rfl⟩
    · exact ⟨[], .inl rfl, [c], ⟨c, hc, rfl⟩, rfl⟩
    · exact ⟨['_'], .inr rfl, [c], ⟨c, hc, rfl⟩, rfl⟩

theorem nil_mem_star : [] ∈ e.star.matches' := Language.nil_mem_kstar _

theorem append_mem_star {a b : Text} (ha : a ∈ e.matches') (hb : b ∈ e.star.matches') :
    a ++ b ∈ e.star.matches' := by
  obtain ⟨words, rfl, hwords⟩ := Language.mem_kstar.1 hb
  exact Language.mem_kstar.2 ⟨a :: words, rfl, List.forall_mem_cons.2 ⟨ha, hwords⟩⟩

theorem star_spacedDigit_mono {more : Text} (hsub : chars ⊆ more)
    (h : word ∈ (spacedDigit chars).star.matches') :
    word ∈ (spacedDigit more).star.matches' := by
  obtain ⟨words, rfl, hwords⟩ := Language.mem_kstar.1 h
  refine Language.mem_kstar.2 ⟨words, rfl, fun part hpart => ?_⟩
  obtain ⟨c, hc, hform⟩ := mem_spacedDigit.1 (hwords part hpart)
  exact mem_spacedDigit.2 ⟨c, hsub hc, hform⟩

/-- A class of ASCII characters is known from what it says of each of these. -/
theorem iff_mem_of_ascii {p : Char → Bool} (hp : ∀ c, p c → c.toNat < 0x80)
    (hchars : ∀ c ∈ chars, c.toNat < 0x80)
    (hascii : ∀ n < 0x80, p (Char.ofNat n) = chars.contains (Char.ofNat n)) (c : Char) :
    p c ↔ c ∈ chars := by
  rcases Nat.lt_or_ge c.toNat 0x80 with hlow | hhigh
  · have hc := hascii c.toNat hlow
    rw [Char.ofNat_toNat] at hc
    rw [hc, List.contains_iff_mem]
  · exact iff_of_false (fun h => absurd (hp c h) (Nat.not_lt.2 hhigh))
      (fun h => absurd (hchars c h) (Nat.not_lt.2 hhigh))

theorem isDigit_iff (c : Char) : c.isDigit ↔ c ∈ decimalDigits :=
  iff_mem_of_ascii (fun _ h => ascii_of_isPart (isPart_of_isDigit h))
    (List.all_iff_forall_prop.1 rfl) (by decide) c

theorem isHexDigit_iff (c : Char) : isHexDigit c ↔ c ∈ hexDigits :=
  iff_mem_of_ascii (fun _ h => ascii_of_isPart (isPart_of_isHexDigit h))
    (List.all_iff_forall_prop.1 rfl) (by decide) c

theorem isOctalDigit_iff (c : Char) : isOctalDigit c ↔ c ∈ octalDigits :=
  iff_mem_of_ascii (fun _ h => ascii_of_isPart (isPart_of_isOctalDigit h))
    (List.all_iff_forall_prop.1 rfl) (by decide) c

theorem isBinaryDigit_iff (c : Char) : isBinaryDigit c ↔ c ∈ binaryDigits := by
  simp [isBinaryDigit, binaryDigits]

theorem isZero_iff (c : Char) : (c == '0') ↔ c ∈ ['0'] := by simp

/-- Whether a word of an expression with that many characters stands at the front of a text. -/
def Begins (e : RegularExpression Char) (n : Nat) (text : Text) : Prop :=
  ∃ word rest, word ∈ e.matches' ∧ word ++ rest = text ∧ word.length = n

theorem begins_char (c : Char) (rest : Text) : Begins (char c) 1 (c :: rest) :=
  ⟨[c], rest, mem_char.2 rfl, rfl, rfl⟩

theorem begins_oneOf (hc : c ∈ chars) (rest : Text) : Begins (oneOf chars) 1 (c :: rest) :=
  ⟨[c], rest, mem_oneOf.2 ⟨c, hc, rfl⟩, rfl, rfl⟩

/-- A part that is measured as zero when it is missing may be missing. -/
theorem begins_optional (h : n ≠ 0 → Begins e n text) : Begins (optional e) n text := by
  by_cases hn : n = 0
  · exact ⟨[], text, mem_optional.2 (.inl rfl), rfl, hn.symm⟩
  · obtain ⟨word, rest, hword, happend, hlength⟩ := h hn
    exact ⟨word, rest, mem_optional.2 (.inr hword), happend, hlength⟩

theorem Begins.mul (h : Begins e n text) (h' : Begins f m (text.drop n)) :
    Begins (e * f) (n + m) text := by
  obtain ⟨a, rest, ha, rfl, rfl⟩ := h
  obtain ⟨b, behind, hb, hrest, rfl⟩ := h'
  rw [List.drop_left] at hrest
  subst hrest
  exact ⟨a ++ b, behind, mem_mul.2 ⟨a, ha, b, hb, rfl⟩, List.append_assoc .., List.length_append⟩

theorem Begins.of_mem (h : Begins e n text) (hsub : ∀ word ∈ e.matches', word ∈ f.matches') :
    Begins f n text := by
  obtain ⟨word, rest, hword, happend, hlength⟩ := h
  exact ⟨word, rest, hsub word hword, happend, hlength⟩

theorem Begins.inl (h : Begins e n text) : Begins (e + f) n text :=
  h.of_mem fun _ hword => mem_add.2 (.inl hword)

theorem Begins.inr (h : Begins f n text) : Begins (e + f) n text :=
  h.of_mem fun _ hword => mem_add.2 (.inr hword)

section Run

variable {isDigit : Char → Bool}

theorem run_cons (hmark : c ≠ '_') (rest : Text) :
    run isDigit (c :: rest) = if isDigit c then run isDigit rest + 1 else 0 :=
  run.eq_2 _ _ _ (by simp [hmark])

/-- A run is a word of its own grammar. -/
theorem begins_run (hdigit : ∀ c, isDigit c ↔ c ∈ chars) (text : Text) :
    Begins (spacedDigit chars).star (run isDigit text) text := by
  have hnone : ∀ text, Begins (spacedDigit chars).star 0 text :=
    fun text => ⟨[], text, nil_mem_star, rfl, rfl⟩
  fun_induction run isDigit text with
  | case1 d rest hd ih =>
    obtain ⟨word, behind, hword, rfl, hlength⟩ := ih
    refine ⟨['_', d] ++ word, behind, append_mem_star ?_ hword, rfl, by simp [hlength]⟩
    exact mem_spacedDigit.2 ⟨d, (hdigit d).1 hd, .inr rfl⟩
  | case2 => exact hnone _
  | case3 c rest hother hc ih =>
    obtain ⟨word, behind, hword, rfl, hlength⟩ := ih
    refine ⟨[c] ++ word, behind, append_mem_star ?_ hword, rfl, by simp [hlength]⟩
    exact mem_spacedDigit.2 ⟨c, (hdigit c).1 hc, .inl rfl⟩
  | case4 => exact hnone _
  | case5 => exact hnone _

/-- A run that is present has a first digit. -/
theorem begins_run_of_ne (hdigit : ∀ c, isDigit c ↔ c ∈ chars) {text : Text}
    (h : run isDigit text ≠ 0) :
    Begins (spacedDigit chars * (spacedDigit chars).star) (run isDigit text) text := by
  obtain ⟨word, rest, hword, happend, hlength⟩ := begins_run hdigit text
  obtain ⟨words, rfl, hwords⟩ := Language.mem_kstar.1 hword
  cases words with
  | nil => exact absurd hlength.symm h
  | cons first later =>
    obtain ⟨hfirst, hlater⟩ := List.forall_mem_cons.1 hwords
    have hstar := Language.mem_kstar.2 ⟨later, rfl, hlater⟩
    exact ⟨_, rest, mem_mul.2 ⟨first, hfirst, _, hstar, rfl⟩, happend, hlength⟩

/-- Behind a word of its grammar a run goes on as it would have begun there. -/
theorem run_append (hdigit : ∀ c, isDigit c ↔ c ∈ chars) (hmark : '_' ∉ chars)
    (h : word ∈ (spacedDigit chars).star.matches') (rest : Text) :
    run isDigit (word ++ rest) = word.length + run isDigit rest := by
  obtain ⟨words, rfl, hwords⟩ := Language.mem_kstar.1 h
  clear h
  induction words with
  | nil => simp
  | cons first later ih =>
    obtain ⟨hfirst, hlater⟩ := List.forall_mem_cons.1 hwords
    obtain ⟨c, hc, hform⟩ := mem_spacedDigit.1 hfirst
    have hne : c ≠ '_' := by
      rintro rfl
      exact hmark hc
    have hrest := ih hlater
    rw [List.flatten_cons, List.append_assoc, List.length_append]
    rcases hform with rfl | rfl
    · rw [List.singleton_append, run_cons hne, if_pos ((hdigit c).2 hc), hrest,
        List.length_singleton]
      omega
    · change run isDigit ('_' :: c :: (later.flatten ++ rest)) = _
      rw [run, if_pos ((hdigit c).2 hc), hrest]
      change _ = 2 + _ + _
      omega

end Run

theorem begins_digits (h : digits text ≠ 0) : Begins digitPart (digits text) text := by
  cases text with
  | nil => exact absurd rfl h
  | cons c rest =>
    rw [digits] at h ⊢
    split at h
    · rename_i hc
      rw [if_pos hc, Nat.add_comm]
      exact (begins_oneOf ((isDigit_iff c).1 hc) rest).mul (begins_run isDigit_iff rest)
    · exact absurd rfl h

theorem begins_sign (text : Text) : Begins (optional (oneOf ['+', '-'])) (sign text) text := by
  unfold sign
  split
  · exact begins_optional fun _ => begins_oneOf (by decide) _
  · exact begins_optional fun _ => begins_oneOf (by decide) _
  · exact begins_optional fun h => absurd rfl h

theorem begins_exponent (h : exponent text ≠ 0) : Begins exponentPart (exponent text) text := by
  cases text with
  | nil => exact absurd rfl h
  | cons c rest =>
    simp only [exponent] at h ⊢
    split at h
    · rename_i hc
      split at h
      · exact absurd rfl h
      · rename_i hpower
        rw [if_pos hc, if_neg hpower]
        have hletter : c ∈ ['e', 'E'] := by simpa using hc
        refine ((begins_oneOf hletter rest).mul (begins_sign rest)).mul ?_
        rw [Nat.add_comm, List.drop_succ_cons]
        exact begins_digits hpower
    · exact absurd rfl h

theorem begins_pointFloat (h : pointFloat text ≠ 0) : Begins floatForm (pointFloat text) text := by
  unfold pointFloat at h ⊢
  simp only at h ⊢
  split at h
  · rename_i rest hrest
    split at h
    · exact absurd rfl h
    · rename_i hpresent
      have hpoint := begins_char '.' rest
      have hpower : Begins (optional exponentPart) _ (rest.drop (digits rest)) :=
        begins_optional begins_exponent
      rw [if_neg hpresent]
      by_cases hwhole : digits text = 0
      · have hfraction : digits rest ≠ 0 := fun hnone => hpresent ⟨hwhole, hnone⟩
        rw [hwhole, List.drop_zero] at hrest
        subst hrest
        rw [hwhole, Nat.zero_add]
        refine ((hpoint.mul (begins_digits hfraction)).mul ?_).inr.inl
        rwa [Nat.add_comm, List.drop_succ_cons]
      · have hbehind : text.drop (digits text + 1) = rest := by
          rw [← List.drop_drop, hrest, List.drop_succ_cons, List.drop_zero]
        refine (((begins_digits hwhole).mul ?_).mul ?_).mul ?_ |>.inl.inl
        · rwa [hrest]
        · rw [hbehind]
          exact begins_optional begins_digits
        · rwa [← List.drop_drop, hbehind]
  · exact absurd rfl h

theorem begins_exponentFloat (h : exponentFloat text ≠ 0) :
    Begins floatForm (exponentFloat text) text := by
  unfold exponentFloat at h ⊢
  simp only at h ⊢
  split at h
  · exact absurd rfl h
  · rename_i hpresent
    rw [if_neg hpresent]
    rw [not_or] at hpresent
    exact ((begins_digits hpresent.1).mul (begins_exponent hpresent.2)).inr

/-- The first form that is present is one of the forms. -/
theorem firstPresent_mem {lengths : List Nat} (h : firstPresent lengths ≠ 0) :
    firstPresent lengths ∈ lengths := by
  induction lengths with
  | nil => exact absurd rfl h
  | cons n later ih =>
    rw [firstPresent] at h ⊢
    split at h
    · rename_i hnone
      rw [if_pos hnone]
      exact List.mem_cons_of_mem _ (ih h)
    · rename_i hsome
      rw [if_neg hsome]
      exact List.mem_cons_self

theorem begins_firstPresent {lengths : List Nat} (h : ∀ n ∈ lengths, n ≠ 0 → Begins e n text)
    (hpresent : firstPresent lengths ≠ 0) : Begins e (firstPresent lengths) text :=
  h _ (firstPresent_mem hpresent) hpresent

theorem begins_float (h : float text ≠ 0) : Begins floatForm (float text) text := by
  refine begins_firstPresent ?_ h
  simp only [List.forall_mem_cons, List.not_mem_nil, false_implies, implies_true, and_true]
  exact ⟨begins_pointFloat, begins_exponentFloat⟩

theorem begins_imaginary (h : n ≠ 0 → Begins e n text) (hpresent : imaginary n text ≠ 0) :
    Begins (e * oneOf ['j', 'J']) (imaginary n text) text := by
  unfold imaginary at hpresent ⊢
  split at hpresent
  · rename_i c rest hrest
    split at hpresent
    · rename_i hunit
      have hletter : c ∈ ['j', 'J'] := by simpa using hunit.2
      rw [if_pos hunit]
      refine (h hunit.1).mul ?_
      rw [hrest]
      exact begins_oneOf hletter rest
    · exact absurd rfl hpresent
  · exact absurd rfl hpresent

theorem begins_based {letter : Char} {letters : Text} {isDigit : Char → Bool}
    (hletters : ∀ c : Char, c.toLower = letter ↔ c ∈ letters)
    (hdigit : ∀ c, isDigit c ↔ c ∈ chars) (h : based letter isDigit text ≠ 0) :
    Begins (basedForm letters chars) (based letter isDigit text) text := by
  unfold based at h ⊢
  split at h
  · rename_i c rest
    simp only at h ⊢
    split at h
    · rename_i hc
      rw [if_pos hc, Nat.add_comm]
      have hmark := (begins_char '0' (c :: rest)).mul
        (begins_oneOf ((hletters c).1 hc.1) rest)
      exact hmark.mul (begins_run_of_ne hdigit hc.2)
    · exact absurd rfl h
  · exact absurd rfl h

theorem begins_decimal (h : decimal text ≠ 0) : Begins decimalForm (decimal text) text := by
  cases text with
  | nil => exact absurd rfl h
  | cons c rest =>
    rw [decimal] at h ⊢
    split at h
    · rename_i hc
      subst hc
      rw [if_pos rfl, Nat.add_comm]
      exact ((begins_char '0' rest).mul (begins_run isZero_iff rest)).inl
    · rename_i hc
      rw [if_neg hc]
      rw [digits] at h ⊢
      split at h
      · rename_i hdigit
        have hfirst : c ∈ ['1', '2', '3', '4', '5', '6', '7', '8', '9'] := by
          have hmem := (isDigit_iff c).1 hdigit
          exact (List.mem_cons.1 hmem).resolve_left hc
        rw [if_pos hdigit, Nat.add_comm]
        exact ((begins_oneOf hfirst rest).mul (begins_run isDigit_iff rest)).inr
      · exact absurd rfl h

theorem toLower_eq_iff {letter : Char} {letters : Text} (hletter : letter.isAlpha)
    (hletters : ∀ c ∈ letters, c.toNat < 0x80)
    (hascii : ∀ n < 0x80, ((Char.ofNat n).toLower == letter) = letters.contains (Char.ofNat n))
    (c : Char) : c.toLower = letter ↔ c ∈ letters := by
  rw [← beq_iff_eq]
  refine iff_mem_of_ascii (p := fun c => c.toLower == letter) ?_ hletters hascii c
  exact fun c hc => ascii_of_isPart (isPart_of_toLower hletter (beq_iff_eq.1 hc))

theorem toLower_eq_x (c : Char) : c.toLower = 'x' ↔ c ∈ ['x', 'X'] :=
  toLower_eq_iff rfl (List.all_iff_forall_prop.1 rfl) (by decide) c

theorem toLower_eq_b (c : Char) : c.toLower = 'b' ↔ c ∈ ['b', 'B'] :=
  toLower_eq_iff rfl (List.all_iff_forall_prop.1 rfl) (by decide) c

theorem toLower_eq_o (c : Char) : c.toLower = 'o' ↔ c ∈ ['o', 'O'] :=
  toLower_eq_iff rfl (List.all_iff_forall_prop.1 rfl) (by decide) c

/-- What is measured at the front of a text is a literal. -/
theorem begins_length (h : length text ≠ 0) : Begins literal (length text) text := by
  refine begins_firstPresent ?_ h
  simp only [List.forall_mem_cons, List.not_mem_nil, false_implies, implies_true, and_true]
  exact ⟨fun h => (begins_imaginary begins_digits h).inl.inl.inl,
    fun h => (begins_imaginary begins_float h).inr.inl.inl,
    fun h => (begins_float h).inr.inl,
    fun h => (begins_based toLower_eq_x isHexDigit_iff h).inl.inl.inl.inr,
    fun h => (begins_based toLower_eq_b isBinaryDigit_iff h).inr.inl.inl.inr,
    fun h => (begins_based toLower_eq_o isOctalDigit_iff h).inr.inl.inr,
    fun h => (begins_decimal h).inr.inr⟩

section Words

variable {whole power : Text}

/-- Behind the digits of a word the digits go on as a run would. -/
theorem digits_append (h : word ∈ digitPart.matches') (rest : Text) :
    digits (word ++ rest) = word.length + run Char.isDigit rest := by
  obtain ⟨_, hfirst, more, hmore, rfl⟩ := mem_mul.1 h
  obtain ⟨c, hc, rfl⟩ := mem_oneOf.1 hfirst
  change digits (c :: (more ++ rest)) = (c :: more).length + _
  rw [digits, if_pos ((isDigit_iff c).2 hc), run_append isDigit_iff (by decide) hmore,
    List.length_cons]
  omega

theorem digits_ne_zero_of_mem (h : word ∈ digitPart.matches') (rest : Text) :
    digits (word ++ rest) ≠ 0 := by
  obtain ⟨_, hfirst, more, -, rfl⟩ := mem_mul.1 h
  obtain ⟨c, hc, rfl⟩ := mem_oneOf.1 hfirst
  exact digits_ne_zero (more ++ rest) ((isDigit_iff c).2 hc)

theorem head_of_exponent (h : power ∈ exponentPart.matches') :
    ∃ c more, (c = 'e' ∨ c = 'E') ∧ power = c :: more := by
  obtain ⟨_, hmarks, more, -, rfl⟩ := mem_mul.1 h
  obtain ⟨_, hletter, signs, -, rfl⟩ := mem_mul.1 hmarks
  obtain ⟨c, hc, rfl⟩ := mem_oneOf.1 hletter
  exact ⟨c, signs ++ more, by simpa using hc, rfl⟩

theorem exponent_append (h : power ∈ exponentPart.matches') (rest : Text) :
    exponent (power ++ rest) = power.length + run Char.isDigit rest := by
  obtain ⟨_, hmarks, more, hmore, rfl⟩ := mem_mul.1 h
  obtain ⟨_, hletter, signs, hsigns, rfl⟩ := mem_mul.1 hmarks
  obtain ⟨c, hc, rfl⟩ := mem_oneOf.1 hletter
  have hsigned : sign (signs ++ (more ++ rest)) = signs.length := by
    rcases mem_optional.1 hsigns with rfl | hsign
    · obtain ⟨_, hfirst, later, -, rfl⟩ := mem_mul.1 hmore
      obtain ⟨d, hd, rfl⟩ := mem_oneOf.1 hfirst
      have hother : ∀ d ∈ decimalDigits, d ≠ '+' ∧ d ≠ '-' := List.all_iff_forall_prop.1 rfl
      obtain ⟨hplus, hminus⟩ := hother d hd
      simp [sign, hplus, hminus]
    · obtain ⟨d, hd, rfl⟩ := mem_oneOf.1 hsign
      simp only [List.mem_cons, List.not_mem_nil, or_false] at hd
      rcases hd with rfl | rfl <;> rfl
  have hletter : c = 'e' ∨ c = 'E' := by simpa using hc
  change exponent (c :: (signs ++ more ++ rest)) = (c :: (signs ++ more)).length + _
  rw [List.append_assoc]
  simp only [exponent, if_pos hletter, hsigned, List.drop_left,
    if_neg (digits_ne_zero_of_mem hmore rest)]
  rw [digits_append hmore, List.length_cons, List.length_append]
  omega

def EndsDigits (c : Char) : Prop := c ≠ '_' ∧ c.isDigit = false

instance : DecidablePred EndsDigits := fun _ => inferInstanceAs (Decidable (_ ∧ _))

theorem run_of_ends (hc : EndsDigits c) (rest : Text) : run Char.isDigit (c :: rest) = 0 := by
  rw [run_cons hc.1, hc.2, if_neg Bool.false_ne_true]

theorem digits_of_ends (hc : EndsDigits c) (rest : Text) : digits (c :: rest) = 0 := by
  rw [digits, hc.2, if_neg Bool.false_ne_true]

/-- The digits of a word that may be missing end in front of what ends digits. -/
theorem digits_of_optional (hwhole : whole ∈ (optional digitPart).matches') (hc : EndsDigits c)
    (rest : Text) : digits (whole ++ c :: rest) = whole.length := by
  rcases mem_optional.1 hwhole with rfl | hwhole
  · exact digits_of_ends hc rest
  · rw [digits_append hwhole, run_of_ends hc, Nat.add_zero]

theorem endsDigits_of_exponent (hc : c = 'e' ∨ c = 'E') : EndsDigits c := by
  rcases hc with rfl | rfl <;> decide

def fraction (text : Text) : Nat := digits text + exponent (text.drop (digits text))

theorem fraction_of_exponent (hwhole : whole ∈ (optional digitPart).matches')
    (hpower : power ∈ exponentPart.matches') (rest : Text) :
    fraction (whole ++ (power ++ rest)) = whole.length + power.length + run Char.isDigit rest := by
  obtain ⟨c, more, hc, rfl⟩ := head_of_exponent hpower
  have hdigits : digits (whole ++ (c :: more ++ rest)) = whole.length :=
    digits_of_optional hwhole (endsDigits_of_exponent hc) (more ++ rest)
  rw [fraction, hdigits, List.drop_left, exponent_append hpower, Nat.add_assoc]

/-- A fraction is measured with all that belongs to it. -/
theorem le_fraction (hwhole : whole ∈ (optional digitPart).matches')
    (hpower : power ∈ (optional exponentPart).matches') (rest : Text) :
    whole.length + power.length ≤ fraction (whole ++ (power ++ rest)) := by
  rcases mem_optional.1 hpower with rfl | hpower
  · rw [fraction, List.nil_append, List.length_nil, Nat.add_zero]
    refine Nat.le_trans ?_ (Nat.le_add_right _ _)
    rcases mem_optional.1 hwhole with rfl | hwhole
    · exact Nat.zero_le _
    · rw [digits_append hwhole]
      exact Nat.le_add_right _ _
  · rw [fraction_of_exponent hwhole hpower]
    exact Nat.le_add_right _ _

/-- A fraction is measured exactly in front of what ends digits and begins no exponent. -/
theorem fraction_eq (hwhole : whole ∈ (optional digitPart).matches')
    (hpower : power ∈ (optional exponentPart).matches') (hc : EndsDigits c)
    (hletter : ¬ (c = 'e' ∨ c = 'E')) (rest : Text) :
    fraction (whole ++ (power ++ c :: rest)) = whole.length + power.length := by
  rcases mem_optional.1 hpower with rfl | hpower
  · rw [List.nil_append, fraction, digits_of_optional hwhole hc, List.drop_left, exponent,
      if_neg hletter, List.length_nil]
  · rw [fraction_of_exponent hwhole hpower, run_of_ends hc, Nat.add_zero]

end Words

/-- The point of a float has digits before it or behind it; without a point there is an exponent. -/
theorem cases_of_floatForm (h : word ∈ floatForm.matches') :
    (∃ whole later power, whole ∈ (optional digitPart).matches' ∧
      later ∈ (optional digitPart).matches' ∧ power ∈ (optional exponentPart).matches' ∧
      (whole ∈ digitPart.matches' ∨ later ∈ digitPart.matches') ∧
      word = whole ++ '.' :: (later ++ power)) ∨
    ∃ whole power, whole ∈ digitPart.matches' ∧ power ∈ exponentPart.matches' ∧
      word = whole ++ power := by
  rcases mem_add.1 h with h | hexponent
  · rcases mem_add.1 h with hpoint | hfraction
    · obtain ⟨marks, hmarks, power, hpower, rfl⟩ := mem_mul.1 hpoint
      obtain ⟨front, hfront, later, hlater, rfl⟩ := mem_mul.1 hmarks
      obtain ⟨whole, hwhole, point, hchar, rfl⟩ := mem_mul.1 hfront
      obtain rfl := mem_char.1 hchar
      exact .inl ⟨whole, later, power, mem_optional.2 (.inr hwhole), hlater, hpower, .inl hwhole,
        by simp⟩
    · obtain ⟨marks, hmarks, power, hpower, rfl⟩ := mem_mul.1 hfraction
      obtain ⟨point, hchar, later, hlater, rfl⟩ := mem_mul.1 hmarks
      obtain rfl := mem_char.1 hchar
      exact .inl ⟨[], later, power, mem_optional.2 (.inl rfl), mem_optional.2 (.inr hlater),
        hpower, .inr hlater, rfl⟩
  · obtain ⟨whole, hwhole, power, hpower, rfl⟩ := mem_mul.1 hexponent
    exact .inr ⟨whole, power, hwhole, hpower, rfl⟩

theorem ne_nil_of_digitPart (h : word ∈ digitPart.matches') : word ≠ [] := by
  rintro rfl
  exact digits_ne_zero_of_mem h [] rfl

theorem ne_nil_of_floatForm (h : word ∈ floatForm.matches') : word ≠ [] := by
  rcases cases_of_floatForm h with ⟨_, _, _, _, _, _, _, rfl⟩ | ⟨whole, power, hwhole, -, rfl⟩
  · simp
  · exact List.append_ne_nil_of_left_ne_nil (ne_nil_of_digitPart hwhole) power

section Floats

variable {whole later power : Text}

theorem endsDigits_point : EndsDigits '.' := by decide

theorem float_of_point (hwhole : whole ∈ (optional digitPart).matches')
    (hpresent : whole ∈ digitPart.matches' ∨ digits text ≠ 0) :
    float (whole ++ '.' :: text) = whole.length + 1 + fraction text := by
  have hdigits : digits (whole ++ '.' :: text) = whole.length :=
    digits_of_optional hwhole endsDigits_point text
  have hdrop : (whole ++ '.' :: text).drop (digits (whole ++ '.' :: text)) = '.' :: text := by
    rw [hdigits, List.drop_left]
  have hsome : ¬ (whole.length = 0 ∧ digits text = 0) := by
    rintro ⟨hnone, hfraction⟩
    refine hpresent.elim (fun hmem => ?_) fun hne => hne hfraction
    rw [← hdigits] at hnone
    exact digits_ne_zero_of_mem hmem _ hnone
  have hpoint : pointFloat (whole ++ '.' :: text) = whole.length + 1 + fraction text := by
    rw [pointFloat_of_point hdrop, hdigits, if_neg hsome, fraction]
    omega
  rw [float, firstPresent, hpoint, if_neg (by omega)]

theorem float_of_exponent (hwhole : whole ∈ digitPart.matches')
    (hpower : power ∈ exponentPart.matches') (rest : Text) :
    float (whole ++ (power ++ rest)) =
      whole.length + power.length + run Char.isDigit rest := by
  obtain ⟨c, more, hc, rfl⟩ := head_of_exponent hpower
  have hdigits : digits (whole ++ (c :: more ++ rest)) = whole.length :=
    digits_of_optional (mem_optional.2 (.inr hwhole)) (endsDigits_of_exponent hc) (more ++ rest)
  have hwholeNe := digits_ne_zero_of_mem hwhole (c :: more ++ rest)
  have hnone : pointFloat (whole ++ (c :: more ++ rest)) = 0 := by
    apply pointFloat_of_not_point
    rw [hdigits, List.drop_left]
    rcases hc with rfl | rfl <;> simp
  have hexponent : exponentFloat (whole ++ (c :: more ++ rest)) =
      whole.length + (c :: more).length + run Char.isDigit rest := by
    rw [hdigits] at hwholeNe
    rw [exponentFloat]
    simp only [hdigits, List.drop_left, exponent_append hpower]
    rw [if_neg (by simp [hwholeNe]), Nat.add_assoc]
  rw [float, firstPresent, if_pos hnone, firstPresent, hexponent, if_neg (by simp)]

theorem float_of_other (hdrop : text.drop (digits text) = c :: rest) (hpoint : c ≠ '.')
    (hletter : ¬ (c = 'e' ∨ c = 'E')) : float text = 0 := by
  have hnone : pointFloat text = 0 := by
    apply pointFloat_of_not_point
    rw [hdrop]
    simpa using hpoint
  have hexponent : exponentFloat text = 0 := by
    simp [exponentFloat, hdrop, exponent, hletter]
  rw [float, firstPresent, if_pos hnone, firstPresent, if_pos hexponent, firstPresent]

/-- A float is measured with all that belongs to it. -/
theorem le_float (h : word ∈ floatForm.matches') (rest : Text) :
    word.length ≤ float (word ++ rest) := by
  rcases cases_of_floatForm h with
    ⟨whole, later, power, hwhole, hlater, hpower, hpresent, rfl⟩ |
    ⟨whole, power, hwhole, hpower, rfl⟩
  · have hle := le_fraction hlater hpower rest
    have hfloat : float (whole ++ '.' :: (later ++ (power ++ rest))) = _ :=
      float_of_point hwhole (hpresent.imp_right fun hmem => digits_ne_zero_of_mem hmem _)
    simp only [List.append_assoc, List.cons_append, List.length_append, List.length_cons, hfloat]
    omega
  · rw [List.append_assoc, float_of_exponent hwhole hpower, List.length_append]
    exact Nat.le_add_right _ _

/-- A float is measured exactly in front of what ends digits and begins no exponent. -/
theorem float_eq (h : word ∈ floatForm.matches') (hc : EndsDigits c)
    (hletter : ¬ (c = 'e' ∨ c = 'E')) (rest : Text) :
    float (word ++ c :: rest) = word.length := by
  rcases cases_of_floatForm h with
    ⟨whole, later, power, hwhole, hlater, hpower, hpresent, rfl⟩ |
    ⟨whole, power, hwhole, hpower, rfl⟩
  · have heq := fraction_eq hlater hpower hc hletter rest
    have hfloat : float (whole ++ '.' :: (later ++ (power ++ c :: rest))) = _ :=
      float_of_point hwhole (hpresent.imp_right fun hmem => digits_ne_zero_of_mem hmem _)
    simp only [List.append_assoc, List.cons_append, List.length_append, List.length_cons, hfloat]
    omega
  · rw [List.append_assoc, float_of_exponent hwhole hpower, List.length_append, run_of_ends hc,
      Nat.add_zero]

theorem imaginary_append (hword : word ≠ []) (hc : c = 'j' ∨ c = 'J') (rest : Text) :
    imaginary word.length (word ++ c :: rest) = word.length + 1 := by
  rw [imaginary, List.drop_left]
  exact if_pos ⟨mt List.length_eq_zero_iff.1 hword, hc⟩

theorem imaginary_of_other (hdrop : text.drop n = c :: rest) (hc : ¬ (c = 'j' ∨ c = 'J')) :
    imaginary n text = 0 := by
  rw [imaginary, hdrop]
  exact if_neg fun h => hc h.2

/-- What is imaginary is a literal of another form and its unit. -/
theorem imaginary_eq (h : imaginary n text ≠ 0) : n ≠ 0 ∧ imaginary n text = n + 1 := by
  unfold imaginary at h ⊢
  split at h
  · split at h
    · rename_i hunit
      exact ⟨hunit.1, if_pos hunit⟩
    · exact absurd rfl h
  · exact absurd rfl h

/-- Behind the digits of a float stands no unit. -/
theorem imaginary_digits_of_float (h : word ∈ floatForm.matches') (rest : Text) :
    imaginary (digits (word ++ rest)) (word ++ rest) = 0 := by
  rcases cases_of_floatForm h with
    ⟨whole, later, power, hwhole, -, -, -, rfl⟩ | ⟨whole, power, hwhole, hpower, rfl⟩
  · rw [List.append_assoc, List.cons_append]
    have hdigits := digits_of_optional hwhole endsDigits_point (later ++ power ++ rest)
    exact imaginary_of_other (by rw [hdigits, List.drop_left]) (by decide)
  · obtain ⟨c, more, hc, rfl⟩ := head_of_exponent hpower
    rw [List.append_assoc, List.cons_append]
    have hdigits := digits_of_optional (mem_optional.2 (.inr hwhole)) (endsDigits_of_exponent hc)
      (more ++ rest)
    refine imaginary_of_other (by rw [hdigits, List.drop_left]) ?_
    rcases hc with rfl | rfl <;> decide

end Floats

/-- The first form that is present is at least as long as what all of them reach. -/
theorem le_firstPresent {front : List Nat} (hle : ∀ n ∈ front, n ≠ 0 → m ≤ n)
    (hpresent : ∃ n ∈ front, n ≠ 0) (back : List Nat) : m ≤ firstPresent (front ++ back) := by
  induction front with
  | nil =>
    obtain ⟨n, hn, -⟩ := hpresent
    cases hn
  | cons n later ih =>
    obtain ⟨hn, hlater⟩ := List.forall_mem_cons.1 hle
    rw [List.cons_append, firstPresent]
    split
    · rename_i hnone
      refine ih hlater ?_
      obtain ⟨k, hk, hne⟩ := hpresent
      exact (List.mem_cons.1 hk).elim (fun heq => absurd (heq.trans hnone) hne) (⟨k, ·, hne⟩)
    · rename_i hsome
      exact hn hsome

theorem ends_of_unit (hc : c = 'j' ∨ c = 'J') : EndsDigits c ∧ ¬ (c = 'e' ∨ c = 'E') := by
  rcases hc with rfl | rfl <;> decide

theorem le_length_of_imaginary (h : word ∈ imaginaryForm.matches') (rest : Text) :
    word.length ≤ length (word ++ rest) := by
  obtain ⟨front, c, hfront, hc, rfl⟩ : ∃ front c,
      (front ∈ digitPart.matches' ∨ front ∈ floatForm.matches') ∧ (c = 'j' ∨ c = 'J') ∧
        word = front ++ [c] := by
    rcases mem_add.1 h with h | h
    all_goals
      obtain ⟨front, hfront, unit, hunit, rfl⟩ := mem_mul.1 h
      obtain ⟨c, hc, rfl⟩ := mem_oneOf.1 hunit
      simp only [List.mem_cons, List.not_mem_nil, or_false] at hc
      exact ⟨front, c, by simp [hfront], hc, rfl⟩
  obtain ⟨hends, hother⟩ := ends_of_unit hc
  rw [List.append_assoc, List.singleton_append, List.length_append, List.length_singleton]
  rcases hfront with hdigits | hfloat
  · have hlength : digits (front ++ c :: rest) = front.length :=
      digits_of_optional (mem_optional.2 (.inr hdigits)) hends rest
    rw [length, firstPresent, hlength, imaginary_append (ne_nil_of_digitPart hdigits) hc,
      if_neg (Nat.succ_ne_zero _)]
  · have hnone := imaginary_digits_of_float hfloat (c :: rest)
    rw [length, firstPresent, if_pos hnone, firstPresent, float_eq hfloat hends hother,
      imaginary_append (ne_nil_of_floatForm hfloat) hc, if_neg (Nat.succ_ne_zero _)]

theorem le_length_of_float (h : word ∈ floatForm.matches') (rest : Text) :
    word.length ≤ length (word ++ rest) := by
  have hle := le_float h rest
  have hne : float (word ++ rest) ≠ 0 := by
    have hpos := List.length_pos_iff.2 (ne_nil_of_floatForm h)
    omega
  refine @le_firstPresent _ [_, _, _] ?_ ⟨_, by simp, hne⟩ _
  simp only [List.forall_mem_cons, List.not_mem_nil, false_implies, implies_true, and_true]
  refine ⟨fun h' => absurd (imaginary_digits_of_float h rest) h', fun h' => ?_, fun _ => hle⟩
  rw [(imaginary_eq h').2]
  exact Nat.le_succ_of_le hle

section Based

variable {letter : Char} {letters : Text} {isDigit : Char → Bool}

theorem based_of_letter (hc : c.toLower = letter) (hrun : run isDigit rest ≠ 0) :
    based letter isDigit ('0' :: c :: rest) = run isDigit rest + 2 := by
  rw [based]
  exact if_pos ⟨hc, hrun⟩

theorem based_of_other (hc : c.toLower ≠ letter) :
    based letter isDigit ('0' :: c :: rest) = 0 := by
  rw [based]
  exact if_neg fun h => hc h.1

/-- A literal in a base is measured with all that belongs to it. -/
theorem le_based (hletters : ∀ c : Char, c.toLower = letter ↔ c ∈ letters)
    (hdigit : ∀ c, isDigit c ↔ c ∈ chars) (hmark : '_' ∉ chars)
    (h : word ∈ (basedForm letters chars).matches') (rest : Text) :
    ∃ c more, word = '0' :: c :: more ∧ c ∈ letters ∧
      based letter isDigit (word ++ rest) ≠ 0 ∧
      word.length ≤ based letter isDigit (word ++ rest) := by
  obtain ⟨marks, hmarks, more, hmore, rfl⟩ := mem_mul.1 h
  obtain ⟨zero, hzero, mark, hletter, rfl⟩ := mem_mul.1 hmarks
  obtain rfl := mem_char.1 hzero
  obtain ⟨c, hc, rfl⟩ := mem_oneOf.1 hletter
  obtain ⟨first, hfirst, later, hlater, rfl⟩ := mem_mul.1 hmore
  have hlength := run_append hdigit hmark (append_mem_star hfirst hlater) rest
  have hpos : 0 < (first ++ later).length := by
    obtain ⟨d, -, hform⟩ := mem_spacedDigit.1 hfirst
    rcases hform with rfl | rfl <;> simp
  have hbased : based letter isDigit ('0' :: c :: (first ++ later ++ rest)) =
      run isDigit (first ++ later ++ rest) + 2 :=
    based_of_letter ((hletters c).2 hc) (by omega)
  refine ⟨c, first ++ later, rfl, hc, ?_⟩
  have htext : ['0'] ++ [c] ++ (first ++ later) ++ rest = '0' :: c :: (first ++ later ++ rest) :=
    rfl
  have hword : (['0'] ++ [c] ++ (first ++ later)).length = (first ++ later).length + 2 := rfl
  rw [htext, hword, hbased]
  omega

/-- Only a base can follow a zero and its letter. -/
theorem length_of_letter (hc : c ∈ ['x', 'X', 'b', 'B', 'o', 'O']) (rest : Text) :
    length ('0' :: c :: rest) =
      firstPresent [based 'x' isHexDigit ('0' :: c :: rest),
        based 'b' isBinaryDigit ('0' :: c :: rest), based 'o' isOctalDigit ('0' :: c :: rest),
        decimal ('0' :: c :: rest)] := by
  have hother : ∀ c ∈ ['x', 'X', 'b', 'B', 'o', 'O'],
      EndsDigits c ∧ c ≠ '.' ∧ ¬ (c = 'e' ∨ c = 'E') ∧ ¬ (c = 'j' ∨ c = 'J') :=
    List.all_iff_forall_prop.1 rfl
  obtain ⟨hends, hpoint, hletter, hunit⟩ := hother c hc
  have hdigits : digits ('0' :: c :: rest) = 1 := by
    rw [digits, run_of_ends hends]
    rfl
  have hfloat : float ('0' :: c :: rest) = 0 := float_of_other (by rw [hdigits]; rfl) hpoint hletter
  have himaginary : imaginary 1 ('0' :: c :: rest) = 0 := imaginary_of_other rfl hunit
  have hnone : imaginary 0 ('0' :: c :: rest) = 0 := imaginary_of_other rfl (by decide)
  rw [length, hdigits, hfloat, himaginary, hnone]
  rfl

theorem le_length_of_prefixed (h : word ∈ prefixedForm.matches') (rest : Text) :
    word.length ≤ length (word ++ rest) := by
  rw [prefixedForm, mem_add, mem_add, or_assoc] at h
  rcases h with h | h | h
  · obtain ⟨c, more, rfl, hc, hne, hle⟩ := le_based toLower_eq_x isHexDigit_iff (by decide) h rest
    have hletters : ∀ c ∈ ['x', 'X'], c ∈ ['x', 'X', 'b', 'B', 'o', 'O'] :=
      List.all_iff_forall_prop.1 rfl
    refine Nat.le_trans hle (Nat.le_of_eq ?_)
    rw [List.cons_append, List.cons_append] at hne ⊢
    rw [length_of_letter (hletters c hc), firstPresent, if_neg hne]
  · obtain ⟨c, more, rfl, hc, hne, hle⟩ :=
      le_based toLower_eq_b isBinaryDigit_iff (by decide) h rest
    have hletters : ∀ c ∈ ['b', 'B'], c ∈ ['x', 'X', 'b', 'B', 'o', 'O'] ∧ c.toLower ≠ 'x' :=
      List.all_iff_forall_prop.1 rfl
    refine Nat.le_trans hle (Nat.le_of_eq ?_)
    rw [List.cons_append, List.cons_append] at hne ⊢
    rw [length_of_letter (hletters c hc).1, firstPresent, if_pos (based_of_other (hletters c hc).2),
      firstPresent, if_neg hne]
  · obtain ⟨c, more, rfl, hc, hne, hle⟩ :=
      le_based toLower_eq_o isOctalDigit_iff (by decide) h rest
    have hletters : ∀ c ∈ ['o', 'O'], c ∈ ['x', 'X', 'b', 'B', 'o', 'O'] ∧ c.toLower ≠ 'x' ∧
      c.toLower ≠ 'b' := List.all_iff_forall_prop.1 rfl
    obtain ⟨hletter, hx, hb⟩ := hletters c hc
    refine Nat.le_trans hle (Nat.le_of_eq ?_)
    rw [List.cons_append, List.cons_append] at hne ⊢
    rw [length_of_letter hletter, firstPresent, if_pos (based_of_other hx), firstPresent,
      if_pos (based_of_other hb), firstPresent, if_neg hne]

end Based

theorem digits_le_float (h : float text ≠ 0) : digits text ≤ float text := by
  have hmem := firstPresent_mem h
  change float text ∈ [pointFloat text, exponentFloat text] at hmem
  simp only [List.mem_cons, List.not_mem_nil, or_false] at hmem
  rcases hmem with heq | heq
  · rw [heq] at h ⊢
    unfold pointFloat at h ⊢
    simp only at h ⊢
    split at h
    · split at h
      · exact absurd rfl h
      · rename_i hpresent
        rw [if_neg hpresent]
        omega
    · exact absurd rfl h
  · rw [heq] at h ⊢
    unfold exponentFloat at h ⊢
    simp only at h ⊢
    split at h
    · exact absurd rfl h
    · rename_i hpresent
      rw [if_neg hpresent]
      omega

theorem digits_le_based {letter : Char} {letters : Text} {isDigit : Char → Bool}
    (hletters : ∀ c : Char, c.toLower = letter ↔ c ∈ letters)
    (hends : ∀ c ∈ letters, EndsDigits c) (h : based letter isDigit text ≠ 0) :
    digits text ≤ based letter isDigit text := by
  unfold based at h ⊢
  split at h
  · rename_i c rest
    simp only at h ⊢
    split at h
    · rename_i hc
      have hdigits : digits ('0' :: c :: rest) = 1 := by
        rw [digits, run_of_ends (hends c ((hletters c).1 hc.1))]
        rfl
      rw [if_pos hc, hdigits]
      omega
    · exact absurd rfl h
  · exact absurd rfl h

/-- A decimal literal is made of digits and is measured with all that belongs to it. -/
theorem le_decimal (h : word ∈ decimalForm.matches') (rest : Text) :
    word ∈ digitPart.matches' ∧ word.length ≤ decimal (word ++ rest) := by
  rcases mem_add.1 h with h | h
  · obtain ⟨zero, hzero, more, hmore, rfl⟩ := mem_mul.1 h
    obtain rfl := mem_char.1 hzero
    refine ⟨mem_mul.2 ⟨['0'], mem_oneOf.2 ⟨'0', by decide, rfl⟩, more,
      star_spacedDigit_mono (by decide) hmore, rfl⟩, ?_⟩
    have hzeros := run_append isZero_iff (by decide) hmore rest
    change ('0' :: more).length ≤ decimal ('0' :: (more ++ rest))
    rw [decimal, if_pos rfl, hzeros, List.length_cons]
    omega
  · obtain ⟨first, hfirst, more, hmore, rfl⟩ := mem_mul.1 h
    obtain ⟨c, hc, rfl⟩ := mem_oneOf.1 hfirst
    have hdigit : ∀ c ∈ ['1', '2', '3', '4', '5', '6', '7', '8', '9'],
        c ∈ decimalDigits ∧ c ≠ '0' := List.all_iff_forall_prop.1 rfl
    have hword : [c] ++ more ∈ digitPart.matches' :=
      mem_mul.2 ⟨[c], mem_oneOf.2 ⟨c, (hdigit c hc).1, rfl⟩, more, hmore, rfl⟩
    refine ⟨hword, ?_⟩
    have hdigits := digits_append hword rest
    change ([c] ++ more).length ≤ decimal (c :: (more ++ rest))
    rw [decimal, if_neg (hdigit c hc).2]
    change _ ≤ digits ([c] ++ more ++ rest)
    omega

theorem le_length_of_decimal (h : word ∈ decimalForm.matches') (rest : Text) :
    word.length ≤ length (word ++ rest) := by
  obtain ⟨hword, hle⟩ := le_decimal h rest
  have hdigits := digits_append hword rest
  have hdecimal : decimal (word ++ rest) ≠ 0 := by
    have hpos := List.length_pos_iff.2 (ne_nil_of_digitPart hword)
    omega
  refine @le_firstPresent _ [_, _, _, _, _, _, _] ?_ ⟨_, by simp, hdecimal⟩ []
  simp only [List.forall_mem_cons, List.not_mem_nil, false_implies, implies_true, and_true]
  -- Every form that is present is at least as long as the digits at the front.
  have hreach : ∀ n, digits (word ++ rest) ≤ n → word.length ≤ n := fun n hn => by omega
  refine ⟨fun h => hreach _ ?_, fun h => hreach _ ?_, fun h => hreach _ (digits_le_float h),
    fun h => hreach _ (digits_le_based toLower_eq_x (List.all_iff_forall_prop.1 rfl) h),
    fun h => hreach _ (digits_le_based toLower_eq_b (List.all_iff_forall_prop.1 rfl) h),
    fun h => hreach _ (digits_le_based toLower_eq_o (List.all_iff_forall_prop.1 rfl) h),
    fun _ => hle⟩
  · rw [(imaginary_eq h).2]
    exact Nat.le_succ _
  · obtain ⟨hfloat, heq⟩ := imaginary_eq h
    rw [heq]
    exact Nat.le_succ_of_le (digits_le_float hfloat)

/-- A literal at the front of a text is measured with all that belongs to it. -/
theorem le_length (h : word ∈ literal.matches') (rest : Text) :
    word.length ≤ length (word ++ rest) := by
  rcases mem_add.1 h with h | hinteger
  · rcases mem_add.1 h with himaginary | hfloat
    · exact le_length_of_imaginary himaginary rest
    · exact le_length_of_float hfloat rest
  · rcases mem_add.1 hinteger with hprefixed | hdecimal
    · exact le_length_of_prefixed hprefixed rest
    · exact le_length_of_decimal hdecimal rest

theorem nil_not_mem_literal : [] ∉ literal.matches' := by
  rw [← RegularExpression.rmatch_iff_matches']
  decide

end Number

end SourceTokens
