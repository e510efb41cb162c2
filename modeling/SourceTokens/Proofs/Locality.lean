import Mathlib.Data.List.Find
import SourceTokens.Proofs.Scans

/-!
How far lexemes look. A numeric literal, an operator and the letters of a string literal take no
notice of a text behind them that cannot go on with them, and a string literal takes no notice of
what is behind its closing quotes. Two characters decide whether a number begins, and no operator
that is found is the beginning of a longer one.
-/

namespace SourceTokens

namespace Number

variable {text : Text}

def Bounds (text : Text) : Prop := ∀ c ∈ text.head?, isPart c = false

/-- Whether a length is measured within a text and without regard to what stands behind it, if that
begins with no character of a numeric literal. -/
def Local (measure : Text → Nat) : Prop :=
  ∀ text behind, Bounds behind → measure (text ++ behind) = measure text ∧
    measure text ≤ text.length

theorem ne_of_bounds {c d : Char} {rest : Text} (h : Bounds (c :: rest)) (hd : isPart d) :
    c ≠ d := by
  rintro rfl
  have hc := h c rfl
  rw [hd] at hc
  cases hc

theorem run_of_bounds {isDigit : Char → Bool} (hdigit : ∀ c, isDigit c → isPart c)
    (h : Bounds text) : run isDigit text = 0 := by
  cases text with
  | nil => rfl
  | cons c rest =>
    have hc : ¬ isDigit c := fun hc => ne_of_bounds h (hdigit c hc) rfl
    have hunderscore : c ≠ '_' := ne_of_bounds h rfl
    rw [run.eq_2 _ _ _ (by simp [hunderscore]), if_neg hc]

theorem run_local {isDigit : Char → Bool} (hdigit : ∀ c, isDigit c → isPart c)
    (hunderscore : isDigit '_' = false) : Local (run isDigit) := by
  intro text behind hbehind
  fun_induction run isDigit text with
  | case1 d rest hd ih =>
    obtain ⟨hrun, hle⟩ := ih
    refine ⟨?_, Nat.succ_le_succ (Nat.succ_le_succ hle)⟩
    rw [List.cons_append, List.cons_append, run, if_pos hd, hrun]
  | case2 d rest hd =>
    refine ⟨?_, Nat.zero_le _⟩
    rw [List.cons_append, List.cons_append, run, if_neg hd]
  | case3 c rest hother hc ih =>
    obtain ⟨hrun, hle⟩ := ih
    have hne : c ≠ '_' := by
      rintro rfl
      rw [hunderscore] at hc
      cases hc
    refine ⟨?_, Nat.succ_le_succ hle⟩
    rw [List.cons_append, run.eq_2 _ _ _ (by simp [hne]), if_pos hc, hrun]
  | case4 c rest hother hc =>
    refine ⟨?_, Nat.zero_le _⟩
    by_cases hne : c = '_'
    · subst hne
      -- The underscore is the last character, so no digit of the text follows it.
      cases rest with
      | cons d rest => exact absurd rfl (hother d rest rfl)
      | nil =>
        cases behind with
        | nil => rw [List.append_nil, run.eq_2 _ _ _ (by simp), if_neg hc]
        | cons d behind =>
          have hd : ¬ isDigit d := fun hd => ne_of_bounds hbehind (hdigit d hd) rfl
          rw [List.singleton_append, run, if_neg hd]
    · rw [List.cons_append, run.eq_2 _ _ _ (by simp [hne]), if_neg hc]
  | case5 => exact ⟨run_of_bounds hdigit hbehind, Nat.zero_le _⟩

theorem isDigit_underscore : Char.isDigit '_' = false := rfl

theorem digits_local : Local digits := by
  intro text behind hbehind
  cases text with
  | nil =>
    refine ⟨?_, Nat.le_refl _⟩
    cases behind with
    | nil => rfl
    | cons c behind =>
      have hc : ¬ c.isDigit := fun hc => ne_of_bounds hbehind (isPart_of_isDigit hc) rfl
      simp [digits, hc]
  | cons c rest =>
    obtain ⟨hrun, hle⟩ :=
      run_local (fun _ => isPart_of_isDigit) isDigit_underscore rest behind hbehind
    rw [List.cons_append, digits, digits, hrun]
    refine ⟨rfl, ?_⟩
    split
    · exact Nat.succ_le_succ hle
    · exact Nat.zero_le _

theorem sign_local : Local sign := by
  intro text behind hbehind
  cases text with
  | nil =>
    refine ⟨?_, Nat.le_refl _⟩
    cases behind with
    | nil => rfl
    | cons c behind =>
      have hplus : c ≠ '+' := ne_of_bounds hbehind rfl
      have hminus : c ≠ '-' := ne_of_bounds hbehind rfl
      simp [sign, hplus, hminus]
  | cons c rest =>
    rw [List.cons_append]
    unfold sign
    split
    · rename_i heq
      cases heq
      exact ⟨rfl, Nat.succ_le_succ (Nat.zero_le _)⟩
    · rename_i heq
      cases heq
      exact ⟨rfl, Nat.succ_le_succ (Nat.zero_le _)⟩
    · rename_i hplus hminus
      split
      · rename_i heq
        cases heq
        exact absurd rfl (hplus _)
      · rename_i heq
        cases heq
        exact absurd rfl (hminus _)
      · exact ⟨rfl, Nat.zero_le _⟩

/-- A measure of what is left behind a length is local where the length stays within the text. -/
theorem Local.drop {measure : Text → Nat} (h : Local measure) {behind : Text}
    (hbehind : Bounds behind) {n : Nat} (hn : n ≤ text.length) :
    measure ((text ++ behind).drop n) = measure (text.drop n) ∧
      n + measure (text.drop n) ≤ text.length := by
  obtain ⟨heq, hle⟩ := h (text.drop n) behind hbehind
  rw [List.drop_append_of_le_length hn]
  rw [List.length_drop] at hle
  exact ⟨heq, by omega⟩

theorem exponent_local : Local exponent := by
  intro text behind hbehind
  cases text with
  | nil =>
    refine ⟨?_, Nat.le_refl _⟩
    cases behind with
    | nil => rfl
    | cons c behind =>
      have hlower : c ≠ 'e' := ne_of_bounds hbehind rfl
      have hupper : c ≠ 'E' := ne_of_bounds hbehind rfl
      simp [exponent, hlower, hupper]
  | cons c rest =>
    obtain ⟨hsign, hsignLe⟩ := sign_local rest behind hbehind
    obtain ⟨hpower, hpowerLe⟩ := digits_local.drop hbehind hsignLe
    rw [List.cons_append]
    simp only [exponent, hsign, hpower]
    refine ⟨trivial, ?_⟩
    rw [List.length_cons]
    split
    · split
      · exact Nat.zero_le _
      · omega
    · exact Nat.zero_le _

theorem pointFloat_local : Local pointFloat := by
  intro text behind hbehind
  obtain ⟨hwhole, hwholeLe⟩ := digits_local text behind hbehind
  have hdrop : (text ++ behind).drop (digits text) = text.drop (digits text) ++ behind :=
    List.drop_append_of_le_length hwholeLe
  have hlength : (text.drop (digits text)).length = text.length - digits text :=
    List.length_drop
  unfold pointFloat
  simp only [hwhole, hdrop]
  cases hrest : text.drop (digits text) with
  | nil =>
    refine ⟨?_, Nat.zero_le _⟩
    cases behind with
    | nil => rfl
    | cons c behind =>
      have hpoint : c ≠ '.' := ne_of_bounds hbehind rfl
      simp [hpoint]
  | cons c rest =>
    obtain ⟨hfraction, hfractionLe⟩ := digits_local rest behind hbehind
    obtain ⟨hpower, hpowerLe⟩ := exponent_local.drop hbehind hfractionLe
    rw [hrest, List.length_cons] at hlength
    rw [List.cons_append]
    by_cases hpoint : c = '.'
    · subst hpoint
      simp only [hfraction, hpower]
      refine ⟨trivial, ?_⟩
      split
      · exact Nat.zero_le _
      · omega
    · simp [hpoint]

theorem exponentFloat_local : Local exponentFloat := by
  intro text behind hbehind
  obtain ⟨hwhole, hwholeLe⟩ := digits_local text behind hbehind
  obtain ⟨hpower, hpowerLe⟩ := exponent_local.drop hbehind hwholeLe
  simp only [exponentFloat, hwhole, hpower]
  refine ⟨trivial, ?_⟩
  split
  · exact Nat.zero_le _
  · exact hpowerLe

theorem firstPresent_local {measures : List (Text → Nat)} (h : ∀ m ∈ measures, Local m) :
    Local fun text => firstPresent (measures.map fun m => m text) := by
  intro text behind hbehind
  induction measures with
  | nil => exact ⟨rfl, Nat.zero_le _⟩
  | cons m later ih =>
    obtain ⟨hm, hlater⟩ := List.forall_mem_cons.1 h
    obtain ⟨hfirst, hfirstLe⟩ := hm text behind hbehind
    obtain ⟨hrest, hrestLe⟩ := ih hlater
    simp only [List.map_cons, firstPresent, hfirst]
    simp only at hrest hrestLe
    rw [hrest]
    refine ⟨rfl, ?_⟩
    split
    · exact hrestLe
    · exact hfirstLe

theorem float_local : Local float := by
  have h : ∀ m ∈ [pointFloat, exponentFloat], Local m := by
    simp [pointFloat_local, exponentFloat_local]
  exact firstPresent_local h

theorem imaginary_local {measure : Text → Nat} (h : Local measure) :
    Local fun text => imaginary (measure text) text := by
  intro text behind hbehind
  obtain ⟨hmeasure, hle⟩ := h text behind hbehind
  have hdrop : (text ++ behind).drop (measure text) = text.drop (measure text) ++ behind :=
    List.drop_append_of_le_length hle
  have hlength : (text.drop (measure text)).length = text.length - measure text :=
    List.length_drop
  simp only [imaginary, hmeasure, hdrop]
  cases hrest : text.drop (measure text) with
  | nil =>
    refine ⟨?_, Nat.zero_le _⟩
    cases behind with
    | nil => rfl
    | cons c behind =>
      have hlower : c ≠ 'j' := ne_of_bounds hbehind rfl
      have hupper : c ≠ 'J' := ne_of_bounds hbehind rfl
      simp [hlower, hupper]
  | cons c rest =>
    rw [hrest, List.length_cons] at hlength
    rw [List.cons_append]
    refine ⟨rfl, ?_⟩
    simp only
    split
    · omega
    · exact Nat.zero_le _

theorem based_local {letter : Char} {isDigit : Char → Bool} (hletter : letter.isAlpha)
    (hdigit : ∀ c, isDigit c → isPart c) (hunderscore : isDigit '_' = false) :
    Local (based letter isDigit) := by
  intro text behind hbehind
  by_cases hshape : ∃ c rest, text = '0' :: c :: rest
  · obtain ⟨c, rest, rfl⟩ := hshape
    obtain ⟨hrun, hle⟩ := run_local hdigit hunderscore rest behind hbehind
    rw [List.cons_append, List.cons_append]
    simp only [based, hrun, List.length_cons]
    refine ⟨trivial, ?_⟩
    split
    · omega
    · exact Nat.zero_le _
  · have hzero : based letter isDigit text = 0 := by
      unfold based
      split
      · exact absurd ⟨_, _, rfl⟩ hshape
      · rfl
    rw [hzero]
    refine ⟨?_, Nat.zero_le _⟩
    unfold based
    split
    · rename_i c rest heq
      -- The letter of the base would stand behind the text.
      have hc : c.toLower ≠ letter := by
        intro hc
        cases text with
        | nil =>
          rw [List.nil_append] at heq
          rw [heq] at hbehind
          exact ne_of_bounds hbehind rfl rfl
        | cons zero text =>
          obtain ⟨rfl, htext⟩ := List.cons.inj heq
          cases text with
          | nil =>
            change behind = c :: rest at htext
            rw [htext] at hbehind
            exact ne_of_bounds hbehind (isPart_of_toLower hletter hc) rfl
          | cons d text => exact hshape ⟨d, text, rfl⟩
      simp [hc]
    · rfl

theorem decimal_local : Local decimal := by
  intro text behind hbehind
  cases text with
  | nil =>
    refine ⟨?_, Nat.le_refl _⟩
    cases behind with
    | nil => rfl
    | cons c behind =>
      have hzero : c ≠ '0' := ne_of_bounds hbehind rfl
      have hdigits := (digits_local [] (c :: behind) hbehind).1
      rw [List.nil_append] at hdigits ⊢
      simp only [decimal, if_neg hzero, hdigits]
      rfl
  | cons c rest =>
    have hzero : ∀ d : Char, (d == '0') = true → isPart d := by
      intro d hd
      rw [beq_iff_eq.1 hd]
      rfl
    obtain ⟨hrun, hle⟩ := run_local hzero rfl rest behind hbehind
    obtain ⟨hdigits, hdigitsLe⟩ := digits_local (c :: rest) behind hbehind
    rw [List.cons_append] at hdigits ⊢
    rw [decimal, decimal, hrun, hdigits]
    refine ⟨rfl, ?_⟩
    split
    · exact Nat.succ_le_succ hle
    · exact hdigitsLe

/-- The length of a numeric literal takes no notice of what follows if that cannot go on with it. -/
theorem length_local : Local length := by
  have hparts : ∀ m ∈ [fun text => imaginary (digits text) text,
      fun text => imaginary (float text) text, float, based 'x' isHexDigit,
      based 'b' isBinaryDigit, based 'o' isOctalDigit, decimal], Local m := by
    simp only [List.forall_mem_cons, List.not_mem_nil, false_implies, implies_true, and_true]
    exact ⟨imaginary_local digits_local, imaginary_local float_local, float_local,
      based_local rfl (fun _ => isPart_of_isHexDigit) rfl,
      based_local rfl (fun _ => isPart_of_isBinaryDigit) rfl,
      based_local rfl (fun _ => isPart_of_isOctalDigit) rfl, decimal_local⟩
  exact firstPresent_local hparts

theorem firstPresent_eq_zero_iff {lengths : List Nat} :
    firstPresent lengths = 0 ↔ ∀ n ∈ lengths, n = 0 := by
  induction lengths with
  | nil => simp [firstPresent]
  | cons n later ih =>
    rw [firstPresent, List.forall_mem_cons]
    split
    · rename_i hn
      rw [ih, and_iff_right hn]
    · rename_i hn
      exact ⟨fun h => absurd h hn, fun h => h.1⟩

theorem length_eq_zero {c : Char} {rest : Text} (hdigit : ¬ c.isDigit)
    (hpoint : ¬ (c = '.' ∧ rest.head?.any Char.isDigit)) : length (c :: rest) = 0 := by
  have hdigits : digits (c :: rest) = 0 := if_neg hdigit
  have hzero : c ≠ '0' := by
    rintro rfl
    exact hdigit rfl
  have hpointFloat : pointFloat (c :: rest) = 0 := by
    unfold pointFloat
    simp only [hdigits, List.drop_zero]
    split
    · rename_i after heq
      obtain ⟨rfl, rfl⟩ := List.cons.inj heq
      have hfraction : digits rest = 0 := by
        cases rest with
        | nil => rfl
        | cons d later => exact if_neg fun hd => hpoint ⟨rfl, hd⟩
      simp only [hfraction, and_self, if_true]
    · rfl
  have hfloat : float (c :: rest) = 0 := by
    refine firstPresent_eq_zero_iff.2 ?_
    simp [hpointFloat, exponentFloat, hdigits]
  have himaginary : imaginary 0 (c :: rest) = 0 := by simp [imaginary]
  have hbased : ∀ letter isDigit, based letter isDigit (c :: rest) = 0 := by
    intro letter isDigit
    unfold based
    split
    · rename_i heq
      exact absurd (List.cons.inj heq).1 hzero
    · rfl
  have hdecimal : decimal (c :: rest) = 0 := by rw [decimal, if_neg hzero, hdigits]
  refine firstPresent_eq_zero_iff.2 ?_
  simp [hdigits, hfloat, himaginary, hbased, hdecimal]

theorem digits_ne_zero {d : Char} (later : Text) (hd : d.isDigit) : digits (d :: later) ≠ 0 := by
  rw [digits, if_pos hd]
  exact Nat.succ_ne_zero _

theorem decimal_ne_zero {d : Char} (later : Text) (hd : d.isDigit) : decimal (d :: later) ≠ 0 := by
  rw [decimal]
  split
  · exact Nat.succ_ne_zero _
  · exact digits_ne_zero later hd

theorem pointFloat_ne_zero {d : Char} (later : Text) (hd : d.isDigit) :
    pointFloat ('.' :: d :: later) ≠ 0 := by
  have hpoint : digits ('.' :: d :: later) = 0 := rfl
  simp only [pointFloat, hpoint, List.drop_zero, digits_ne_zero later hd, and_false, if_false]
  omega

/-- A number begins with a digit or with a point before a digit, and only with these. -/
theorem length_ne_zero_iff {c : Char} {rest : Text} :
    length (c :: rest) ≠ 0 ↔ c.isDigit ∨ c = '.' ∧ rest.head?.any Char.isDigit := by
  constructor
  · intro hlength
    by_contra hnot
    obtain ⟨hdigit, hpoint⟩ := not_or.1 hnot
    exact hlength (length_eq_zero hdigit hpoint)
  · rintro hbegins hlength
    have hall := firstPresent_eq_zero_iff.1 hlength
    rcases hbegins with hdigit | ⟨rfl, hfraction⟩
    · exact decimal_ne_zero rest hdigit (hall _ (by simp))
    · have hfloat : float ('.' :: rest) = 0 := hall _ (by simp)
      cases rest with
      | nil => cases hfraction
      | cons d later =>
        exact pointFloat_ne_zero later hfraction
          (firstPresent_eq_zero_iff.1 hfloat _ List.mem_cons_self)

end Number

/-- Whether a text begins with a character that goes on with no lexeme: a space, a backslash or a
break. -/
def Text.Neutral (text : Text) : Prop := ∀ c ∈ text.head?, c ∈ [' ', '\\', '\r', '\n']

namespace Text.Neutral

variable {text : Text}

/-- What holds of the four neutral characters holds of every character that is one of them. -/
theorem forall_mem {P : Char → Prop} (hspace : P ' ') (hbackslash : P '\\') (hreturn : P '\r')
    (hfeed : P '\n') {c : Char} (hc : c ∈ [' ', '\\', '\r', '\n']) : P c := by
  simp only [List.mem_cons, List.not_mem_nil, or_false] at hc
  rcases hc with rfl | rfl | rfl | rfl
  · exact hspace
  · exact hbackslash
  · exact hreturn
  · exact hfeed

theorem bounds (h : Neutral text) : Number.Bounds text :=
  fun c hc => forall_mem (P := fun c => Number.isPart c = false) rfl rfl rfl rfl (h c hc)

theorem not_continue (h : Neutral text) : ∀ c ∈ text.head?, Word.isContinue c = false :=
  fun c hc => forall_mem (P := fun c => Word.isContinue c = false) rfl rfl rfl rfl (h c hc)

end Text.Neutral

theorem Text.isPrefixOf_append {start text behind : Text} (h : ∀ c ∈ behind.head?, c ∉ start) :
    start.isPrefixOf (text ++ behind) = start.isPrefixOf text := by
  induction start generalizing text with
  | nil => cases text <;> rfl
  | cons c start ih =>
    have hstart : ∀ d ∈ behind.head?, d ∉ start :=
      fun d hd hmem => h d hd (List.mem_cons_of_mem _ hmem)
    cases text with
    | nil =>
      cases behind with
      | nil => rfl
      | cons d behind =>
        have hne : (c == d) = false := by
          rw [beq_eq_false_iff_ne]
          rintro rfl
          exact h c rfl (List.mem_cons_self ..)
        rw [List.nil_append, List.isPrefixOf_cons_cons, hne]
        rfl
    | cons d text =>
      rw [List.cons_append, List.isPrefixOf_cons_cons, List.isPrefixOf_cons_cons, ih hstart]

/-- No operator of the table that starts a text is longer than the one found. -/
theorem Operator.length_le_of_longest? {text operator other : Text} (h : longest? text = some operator)
    (hother : other ∈ table) (hstarts : other <+: text) : other.length ≤ operator.length := by
  have hsorted : table.Pairwise fun a b => b.length ≤ a.length := by decide
  obtain ⟨-, before, after, htable, hbefore⟩ := List.find?_eq_some_iff_append.1 h
  rw [htable] at hother hsorted
  rcases List.mem_append.1 hother with hmem | hmem
  · have hnot := hbefore other hmem
    rw [List.isPrefixOf_iff_prefix.2 hstarts] at hnot
    cases hnot
  · rcases List.mem_cons.1 hmem with rfl | hlater
    · exact Nat.le_refl _
    · exact (List.pairwise_cons.1 (List.pairwise_append.1 hsorted).2.1).1 other hlater

theorem Operator.longest?_append_neutral (text : Text) {behind : Text}
    (h : Text.Neutral behind) : longest? (text ++ behind) = longest? text := by
  have htable : ∀ c ∈ [' ', '\\', '\r', '\n'], ∀ operator ∈ table, c ∉ operator := fun c =>
    Text.Neutral.forall_mem (P := fun c => ∀ operator ∈ table, c ∉ operator) (by decide)
      (by decide) (by decide) (by decide)
  apply List.find?_congr
  intro operator hoperator
  exact Text.isPrefixOf_append fun c hc => htable c (h c hc) operator hoperator

namespace StringLiteral

variable {text behind : Text}

theorem isLetters_of_neutral {c : Char} (hc : c ∈ [' ', '\\', '\r', '\n']) (hmem : c ∈ text) :
    isLetters text = false := by
  have hlower : c.toLower = c :=
    Text.Neutral.forall_mem (P := fun c => c.toLower = c) rfl rfl rfl rfl hc
  have htable : ∀ letters ∈ letterTable, c ∉ letters :=
    Text.Neutral.forall_mem (P := fun c => ∀ letters ∈ letterTable, c ∉ letters) (by decide)
      (by decide) (by decide) (by decide) hc
  have hempty : text.isEmpty = false := by
    cases text with
    | nil => cases hmem
    | cons => rfl
  rw [isLetters, hempty, Bool.false_or, Bool.eq_false_iff, Ne, List.contains_iff_mem]
  intro hletters
  have hmap := List.mem_map_of_mem (f := Char.toLower) hmem
  rw [hlower] at hmap
  exact htable _ hletters hmap

theorem ofChar?_of_neutral {c : Char} (hc : c ∈ [' ', '\\', '\r', '\n']) :
    Quote.ofChar? c = none :=
  Text.Neutral.forall_mem (P := fun c => Quote.ofChar? c = none) rfl rfl rfl rfl hc

/-- The letters of a literal and its quote are found in front of a neutral text. -/
theorem lettersBeforeQuote_append_neutral (text : Text) (h : Text.Neutral behind) :
    lettersBeforeQuote (text ++ behind) =
      (lettersBeforeQuote text).map fun r => (r.1, r.2.1, r.2.2 ++ behind) := by
  unfold lettersBeforeQuote
  rw [List.map_findSome?]
  congr 1
  funext n
  rw [Function.comp_apply]
  cases hdrop : text.drop n with
  | cons c rest =>
    have hn : n ≤ text.length := by
      by_contra hlarge
      rw [List.drop_eq_nil_of_le (Nat.le_of_not_le hlarge)] at hdrop
      cases hdrop
    rw [List.drop_append_of_le_length hn, List.take_append_of_le_length hn, hdrop, List.cons_append]
    simp only
    split
    · rw [Option.map_map]
      rfl
    · rfl
  | nil =>
    have hn : text.length ≤ n := List.drop_eq_nil_iff.1 hdrop
    simp only [Option.map_none]
    cases hbehind : (text ++ behind).drop n with
    | nil => rfl
    | cons c rest =>
      rw [List.drop_append, hdrop, List.nil_append] at hbehind
      cases behind with
      | nil => simp at hbehind
      | cons d behind =>
        have hd := h d rfl
        simp only
        rcases Nat.eq_or_lt_of_le hn with heq | hlt
        · rw [heq, Nat.sub_self, List.drop_zero] at hbehind
          obtain ⟨rfl, -⟩ := List.cons.inj hbehind
          rw [ofChar?_of_neutral hd, Option.map_none, ite_self]
        · have hmem : d ∈ (text ++ d :: behind).take n := by
            obtain ⟨m, hm⟩ : ∃ m, n - text.length = m + 1 := ⟨n - text.length - 1, by omega⟩
            rw [List.take_append, hm, List.take_succ_cons]
            exact List.mem_append_right _ (List.mem_cons_self ..)
          rw [isLetters_of_neutral hd hmem, if_neg Bool.false_ne_true]

/-- The closing quotes are found whatever stands behind them. -/
theorem splitAtCloser_of_some {d : Delimiter} {body after : Text}
    (h : splitAtCloser d text = some (body, after)) (other : Text) :
    splitAtCloser d (body ++ other) = some (body, other) := by
  fun_induction splitAtCloser d text generalizing body after with
  | case1 => cases h
  | case2 c rest ih =>
    obtain ⟨⟨body', after'⟩, hsplit, heq⟩ := Option.map_eq_some_iff.1 h
    cases heq
    rw [List.cons_append, List.cons_append, splitAtCloser, ih hsplit, Option.map_some]
  | case3 c rest hc hprefix =>
    cases h
    obtain ⟨quote, triple⟩ := d
    cases triple <;> cases quote <;> rfl
  | case4 c rest hc hprefix ih =>
    obtain ⟨⟨body', after'⟩, hsplit, heq⟩ := Option.map_eq_some_iff.1 h
    cases heq
    obtain ⟨front, hfront⟩ := exists_closer_of_split hsplit
    have hrest := splitAtCloser_append hsplit
    have hcloser : ¬ d.text.isPrefixOf (c :: (body' ++ other)) := by
      intro hopens
      apply hprefix
      have hstart : d.text <+: c :: body' :=
        List.prefix_of_prefix_length_le (List.isPrefixOf_iff_prefix.1 hopens)
          (List.prefix_append (c :: body') other)
          (by rw [hfront, List.length_cons, List.length_append]; omega)
      rw [← hrest]
      exact List.isPrefixOf_iff_prefix.2 (hstart.trans (List.prefix_append (c :: body') after))
    have hne : body' ≠ [] := Segmentation.splitAtCloser_ne_nil hsplit
    obtain ⟨e, body', rfl⟩ := List.exists_cons_of_ne_nil hne
    have hbackslash : c ≠ '\\' := by
      rintro rfl
      rw [← hrest] at hc
      exact hc e (body' ++ after) rfl rfl
    rw [List.cons_append, splitAtCloser_cons hbackslash, if_neg hcloser,
      ih hsplit, Option.map_some]

theorem isContinuation_iff {rest : Text} :
    isContinuation ('\\' :: rest) ↔ rest = ['\n'] ∨ rest = ['\r', '\n'] := by
  simp [isContinuation]

/-- The closing quote is found whatever stands behind it. -/
theorem readBody_of_closed {q : Quote} {body after : Text}
    (h : readBody q text = .closed body after) (other : Text) :
    readBody q (body ++ other) = .closed body other := by
  fun_induction readBody q text generalizing body after with
  | case1 => cases h
  | case2 => cases h
  | case3 => cases h
  | case4 => cases h
  | case5 c later hcontinuation ih =>
    obtain ⟨rest, hrest, rfl⟩ := Body.cons_eq_closed h
    obtain ⟨front, rfl⟩ := exists_quote_of_readBody hrest
    have hopen : ¬ isContinuation ('\\' :: c :: ((front ++ [q.char]) ++ other)) := by
      rw [isContinuation_iff]
      cases front <;> simp [q.char_ne.2.2]
    change readBody q ('\\' :: c :: ((front ++ [q.char]) ++ other)) = _
    rw [readBody, if_neg hopen, ih hrest]
    rfl
  | case6 rest hfeed hbackslash =>
    cases h
    cases q <;> rfl
  | case7 c rest hfeed hbackslash hquote ih =>
    obtain ⟨rest', hrest, rfl⟩ := Body.cons_eq_closed h
    rw [List.append_assoc, List.singleton_append, readBody_cons hfeed hbackslash,
      if_neg hquote, ih hrest]
    rfl

/-- Whether two more quotes follow an opening one is settled in front of a neutral text. -/
theorem isPrefixOf_quotes {q : Quote} (text : Text) (h : Text.Neutral behind) :
    [q.char, q.char].isPrefixOf (text ++ behind) = [q.char, q.char].isPrefixOf text := by
  apply Text.isPrefixOf_append
  intro c hc
  refine Text.Neutral.forall_mem (P := fun c => c ∉ [q.char, q.char]) ?_ ?_ ?_ ?_ (h c hc)
  all_goals cases q <;> decide

end StringLiteral

end SourceTokens
