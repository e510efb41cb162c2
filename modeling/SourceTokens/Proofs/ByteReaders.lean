import SourceTokens.Proofs.ByteNumbers

/-!
Quoted bodies, prefixes, operators and runs of characters by byte offsets. A reader of a quoted body
steps over two bytes at a backslash, which may end inside a character or behind the line. It stops
at the same closing quotes as one that reads characters, because no later byte of a character is a
quote, a backslash or a line feed.
-/

namespace SourceTokens

namespace StringLiteral

theorem Quote.ascii (q : Quote) : q.char.toNat < 0x80 := by cases q <;> decide

/-- A backslash is no quote. -/
theorem Quote.eq_of_ofChar? {c : Char} {q : Quote} (h : Quote.ofChar? c = some q) :
    c = q.char := by
  unfold Quote.ofChar? at h
  split at h
  · cases h
    assumption
  · split at h
    · cases h
      assumption
    · cases h

theorem ascii_of_quote {c : Char} (h : (Quote.ofChar? c).isSome) : c.toNat < 0x80 := by
  obtain ⟨q, hq⟩ := Option.isSome_iff_exists.1 h
  exact Quote.eq_of_ofChar? hq ▸ Quote.ascii q

theorem ascii_of_isLetters {letters : Text} (h : isLetters letters) :
    ∀ c ∈ letters, c.toNat < 0x80 := by
  intro c hc
  have hall : letterTable.all (·.all Char.isAlpha) := by decide
  rcases Bool.or_eq_true_iff.1 h with hempty | hcontains
  · rw [List.isEmpty_iff.1 hempty] at hc
    cases hc
  · have hentry := List.all_eq_true.1 hall _ (List.contains_iff_mem.1 hcontains)
    have halpha := List.all_eq_true.1 hentry _ (List.mem_map_of_mem hc)
    exact Number.ascii_of_isPart (Number.isPart_of_toLower halpha rfl)

def lettersAt (text : Text) (n : Nat) : Option (Text × Quote × Text) :=
  match text.drop n with
  | [] => none
  | c :: rest =>
    if isLetters (text.take n) then (Quote.ofChar? c).map (text.take n, ·, rest) else none

theorem lettersBeforeQuote_eq (text : Text) :
    lettersBeforeQuote text = [0, 1, 2].findSome? (lettersAt text) := rfl

end StringLiteral

namespace ByteLexer

open StringLiteral Utf8

theorem asciiAt_of_high {bytes : List UInt8} {i : Nat} {b : UInt8} (hget : bytes[i]? = some b)
    (hb : 0x80 ≤ b.toNat) : asciiAt bytes i = none := by
  rw [asciiAt, hget, Option.bind_some, asciiOf?, if_neg (Nat.not_lt.2 hb)]

/-- An ASCII text starts another text exactly if its bytes start the bytes of that text. -/
theorem isPrefixOf_encode {a : Text} (ha : ∀ c ∈ a, c.toNat < 0x80) (text : Text) :
    (encode a).isPrefixOf (encode text) = a.isPrefixOf text := by
  induction a generalizing text with
  | nil => rfl
  | cons c rest ih =>
    obtain ⟨hc, hrest⟩ := List.forall_mem_cons.1 ha
    have hbyte : (UInt8.ofNat c.toNat).toNat = c.toNat := toNat_ofNat_of_lt (by omega)
    rw [encode_cons, encodeChar_of_ascii hc]
    cases text with
    | nil => rfl
    | cons d later =>
      rw [encode_cons, List.singleton_append]
      rcases Nat.lt_or_ge d.toNat 0x80 with hlow | hhigh
      · have hbyte' : (UInt8.ofNat d.toNat).toNat = d.toNat := toNat_ofNat_of_lt (by omega)
        have hsame : (UInt8.ofNat c.toNat == UInt8.ofNat d.toNat) = (c == d) := by
          rw [Bool.eq_iff_iff, beq_iff_eq, beq_iff_eq]
          constructor
          · intro heq
            have hnat := congrArg UInt8.toNat heq
            rw [hbyte, hbyte'] at hnat
            exact Char.toNat_inj.1 hnat
          · rintro rfl
            rfl
        rw [encodeChar_of_ascii hlow, List.singleton_append, List.isPrefixOf_cons_cons,
          List.isPrefixOf_cons_cons, hsame, ih hrest]
      · obtain ⟨b, tail, hbytes⟩ := List.exists_cons_of_ne_nil (encodeChar_ne_nil d)
        have hb : 0x80 ≤ b.toNat := high_of_not_ascii hhigh b (by simp [hbytes])
        have hne : (UInt8.ofNat c.toNat == b) = false := by
          rw [beq_eq_false_iff_ne]
          rintro rfl
          omega
        have hne' : (c == d) = false := by
          rw [beq_eq_false_iff_ne]
          rintro rfl
          omega
        rw [hbytes, List.cons_append, List.isPrefixOf_cons_cons, List.isPrefixOf_cons_cons, hne,
          hne']
        rfl

theorem byteCount_of_ascii {a : Text} (ha : ∀ c ∈ a, c.toNat < 0x80) : byteCount a = a.length := by
  induction a with
  | nil => rfl
  | cons c rest ih =>
    obtain ⟨hc, hrest⟩ := List.forall_mem_cons.1 ha
    rw [byteCount_ascii hc, ih hrest, List.length_cons, Nat.add_comm]

/-- The beginning of a text by bytes, where only ASCII texts count, is that by characters. -/
theorem any_takeBytes? {p : Text → Bool} (hp : ∀ a, p a → ∀ c ∈ a, c.toNat < 0x80)
    (text : Text) (n : Nat) :
    (takeBytes? text n).any p = (decide (n ≤ text.length) && p (text.take n)) := by
  rw [Bool.eq_iff_iff, Bool.and_eq_true, decide_eq_true_eq, Option.any_eq_true]
  constructor
  · rintro ⟨a, htake, ha⟩
    obtain ⟨hstarts, hbytes⟩ := takeBytes?_eq_some_iff.1 htake
    rw [byteCount_of_ascii (hp a ha)] at hbytes
    subst hbytes
    exact ⟨hstarts.length_le, by rwa [← List.prefix_iff_eq_take.1 hstarts]⟩
  · rintro ⟨hle, ha⟩
    refine ⟨text.take n, takeBytes?_eq_some_iff.2 ⟨List.take_prefix n text, ?_⟩, ha⟩
    rw [byteCount_of_ascii (hp _ ha), List.length_take, Nat.min_eq_left hle]

def blanksEnd (bytes : List UInt8) (pos : Nat) : Nat :=
  if hblank : (asciiAt bytes pos).any Text.isBlank then blanksEnd bytes (pos + 1) else pos
termination_by bytes.length - pos
decreasing_by
  obtain ⟨c, hc, -⟩ := Option.any_eq_true _ _ |>.1 hblank
  have hlt := lt_of_asciiAt hc
  omega

/-- The offset behind the quotes that close a body. A backslash takes the byte behind it along. -/
def closerEnd (bytes : List UInt8) (d : Delimiter) (i : Nat) : Option Nat :=
  if i < bytes.length then
    if asciiAt bytes i = some '\\' then closerEnd bytes d (i + 2)
    else if asciiAt bytes i = some d.quote.char ∧ (encode d.text).isPrefixOf (bytes.drop i) then
      some (i + byteCount d.text)
    else closerEnd bytes d (i + 1)
  else none
termination_by bytes.length - i

inductive SingleQuoted
  | closed (stop : Nat)
  | continued
  | unterminated
  deriving DecidableEq, Repr

/-- Reads the body of a literal in single quotes. The rest of the line is sliced at every
backslash. -/
def singleQuoted (line : Text) (q : Quote) (i : Nat) : Except Fault SingleQuoted :=
  if i < byteCount line then
    if asciiAt (encode line) i = some '\\' then
      match splitAt line i with
      | .error e => .error e
      | .ok (_, tail) =>
        if isContinuation tail then .ok .continued
        else if byteCount line ≤ i + 1 then .ok .unterminated
        else singleQuoted line q (i + 2)
    else if asciiAt (encode line) i = some '\n' then .ok .unterminated
    else if asciiAt (encode line) i = some q.char then .ok (.closed (i + 1))
    else singleQuoted line q (i + 1)
  else .ok .unterminated
termination_by byteCount line - i

def isPrefixAt (rest : Text) (n : Nat) : Bool :=
  (takeBytes? rest n).any (fun letters => letterTable.contains (letters.map Char.toLower)) &&
    (asciiAt (encode rest) n).any fun c => (Quote.ofChar? c).isSome

def prefixLength? (rest : Text) : Option Nat := [1, 2].find? (isPrefixAt rest)

def isOperatorAt (rest : Text) (n : Nat) : Bool :=
  (takeBytes? rest n).any Operator.table.contains

def operatorLength? (rest : Text) : Option Nat := [3, 2, 1].find? (isOperatorAt rest)

def offsetWhere? (p : Char → Bool) : Text → Option Nat
  | [] => none
  | c :: rest =>
    if p c then some 0 else (offsetWhere? p rest).map ((encodeChar c).length + ·)

def runStop (member : Char → Bool) (line : Text) (start : Nat) : Except Fault Nat := do
  let (_, rest) ← splitAt line start
  return match offsetWhere? (!member ·) rest with
    | some offset => start + offset
    | none => byteCount line

section Agreement

variable {bytes : List UInt8} {i : Nat} {rest : Text}

theorem ascii_of_isBlank {c : Char} (h : Text.isBlank c) : c.toNat < 0x80 := by
  simp only [Text.isBlank, Bool.or_eq_true, beq_iff_eq] at h
  rcases h with (rfl | rfl) | rfl <;> decide

theorem blanksEnd_eq (h : RestAt bytes i rest) :
    blanksEnd bytes i = i + (rest.takeWhile Text.isBlank).length := by
  induction rest generalizing i with
  | nil =>
    have hhead : (asciiAt bytes i).any Text.isBlank = false := by
      rw [h.any_asciiAt fun _ => ascii_of_isBlank]
      rfl
    rw [blanksEnd, dif_neg (Bool.eq_false_iff.1 hhead)]
    rfl
  | cons c later ih =>
    have hhead := h.any_asciiAt fun _ => ascii_of_isBlank
    rw [List.head?_cons, Option.any_some] at hhead
    rw [blanksEnd]
    by_cases hc : Text.isBlank c
    · rw [dif_pos (hhead.trans hc), ih (h.next (ascii_of_isBlank hc)),
        List.takeWhile_cons_of_pos hc, List.length_cons]
      omega
    · rw [dif_neg (by rwa [hhead]), List.takeWhile_cons_of_neg hc]
      rfl

theorem closerEnd_of_high (d : Delimiter) {b : UInt8} (hget : bytes[i]? = some b)
    (hb : 0x80 ≤ b.toNat) : closerEnd bytes d i = closerEnd bytes d (i + 1) := by
  have hlt := (List.getElem?_eq_some_iff.1 hget).1
  rw [closerEnd, if_pos hlt, asciiAt_of_high hget hb, if_neg (by simp), if_neg (by simp)]

theorem ascii_of_mem_delimiter (d : Delimiter) : ∀ c ∈ d.text, c.toNat < 0x80 := by
  intro c hc
  obtain ⟨q, triple⟩ := d
  cases triple <;> simp only [Delimiter.text, Bool.false_eq_true, if_false, if_true,
    List.mem_cons, List.not_mem_nil, or_false, or_self] at hc <;> rw [hc] <;> exact Quote.ascii q

theorem delimiter_isPrefixOf_eq (d : Delimiter) (h : RestAt bytes i rest) :
    (encode d.text).isPrefixOf (bytes.drop i) = d.text.isPrefixOf rest := by
  rw [h, isPrefixOf_encode (ascii_of_mem_delimiter d)]

/-- A backslash at the very end escapes nothing, and nothing closes behind it. -/
theorem closerEnd_of_last_backslash (d : Delimiter) (h : RestAt bytes i ['\\']) :
    closerEnd bytes d i = none := by
  have hbackslash : '\\'.toNat < 0x80 := by decide
  have hlength := h.length_eq
  rw [byteCount_ascii hbackslash] at hlength
  simp only [byteCount, encode, List.flatMap_nil, List.length_nil] at hlength
  rw [closerEnd, if_pos h.lt_length, (h.asciiAt_eq_some_iff hbackslash).2 rfl, if_pos rfl,
    closerEnd, if_neg (by omega)]

/-- The bytes of a text are closed where the text is. -/
theorem closerEnd_eq (d : Delimiter) (h : RestAt bytes i rest) :
    closerEnd bytes d i = (splitAtCloser d rest).map fun (body, _) => i + byteCount body := by
  fun_induction splitAtCloser d rest generalizing i with
  | case1 =>
    rw [closerEnd, if_neg h.not_lt_length]
    rfl
  | case2 c rest ih =>
    have hnext : RestAt bytes (i + 1) (c :: rest) := h.next (by decide)
    have hbackslash : '\\'.toNat < 0x80 := by decide
    rw [closerEnd, if_pos h.lt_length, (h.asciiAt_eq_some_iff hbackslash).2 rfl, if_pos rfl,
      hnext.skip_tail (f := closerEnd bytes d) (fun _ _ => closerEnd_of_high d), ih hnext.behind,
      Option.map_map]
    congr 1
    funext r
    obtain ⟨body, after⟩ := r
    simp only [Function.comp_apply, byteCount_ascii hbackslash, byteCount_cons]
    omega
  | case3 c rest hc hstart =>
    have hascii : asciiAt bytes i = some d.quote.char :=
      (h.asciiAt_eq_some_iff (Quote.ascii _)).2 (congrArg some (quote_of_opens hstart))
    rw [closerEnd, if_pos h.lt_length, if_neg,
      if_pos ⟨hascii, by rwa [delimiter_isPrefixOf_eq d h]⟩]
    · rfl
    · rw [hascii]
      exact fun heq => (Quote.char_ne _).1 (Option.some.inj heq)
  | case4 c rest hc hstart ih =>
    have hstop : ¬ (asciiAt bytes i = some d.quote.char ∧
        (encode d.text).isPrefixOf (bytes.drop i)) := by
      rw [delimiter_isPrefixOf_eq d h]
      exact fun hboth => hstart hboth.2
    by_cases hbackslash : c = '\\'
    · have hrest : rest = [] := by
        cases rest with
        | nil => rfl
        | cons e later => exact absurd rfl (hc e later hbackslash)
      subst hbackslash hrest
      exact closerEnd_of_last_backslash d h
    · have hascii : asciiAt bytes i ≠ some '\\' := by
        rw [ne_eq, h.asciiAt_eq_some_iff (by decide)]
        exact fun heq => hbackslash (Option.some.inj heq)
      rw [closerEnd, if_pos h.lt_length, if_neg hascii, if_neg hstop,
        h.skip_tail (f := closerEnd bytes d) (fun _ _ => closerEnd_of_high d), ih h.behind,
        Option.map_map]
      congr 1
      funext r
      obtain ⟨body, after⟩ := r
      simp only [Function.comp_apply, byteCount_cons]
      omega

theorem singleQuoted_of_high {line : Text} (q : Quote) {b : UInt8}
    (hget : (encode line)[i]? = some b) (hb : 0x80 ≤ b.toNat) :
    singleQuoted line q i = singleQuoted line q (i + 1) := by
  have hlt : i < byteCount line := (List.getElem?_eq_some_iff.1 hget).1
  rw [singleQuoted, if_pos hlt, asciiAt_of_high hget hb, if_neg (by simp), if_neg (by simp),
    if_neg (by simp)]

def SingleQuoted.ofBody (i : Nat) : Body → SingleQuoted
  | .closed body _ => .closed (i + byteCount body)
  | .continued => .continued
  | .broken => .unterminated

theorem SingleQuoted.ofBody_cons (i : Nat) (taken : Text) (b : Body) :
    ofBody i (b.cons taken) = ofBody (i + byteCount taken) b := by
  cases b with
  | closed body after => simp only [Body.cons, ofBody, byteCount_append, Nat.add_assoc]
  | continued => rfl
  | broken => rfl

/-- A body in single quotes ends in the bytes of a line where it does in the line, and the line is
sliced between characters only. -/
theorem singleQuoted_eq {line before : Text} (q : Quote) (h : At line i before rest) :
    singleQuoted line q i = .ok (.ofBody i (readBody q rest)) := by
  have hbackslash : '\\'.toNat < 0x80 := by decide
  have hfeed : '\n'.toNat < 0x80 := by decide
  fun_induction readBody q rest generalizing i before with
  | case1 =>
    rw [singleQuoted, if_neg h.not_lt_count]
    rfl
  | case2 rest =>
    have hascii := (h.restAt.asciiAt_eq_some_iff hfeed).2 rfl
    rw [singleQuoted, if_pos h.lt_count, hascii, if_neg (by decide), if_pos rfl]
    rfl
  | case3 rest hcontinued =>
    have hascii := (h.restAt.asciiAt_eq_some_iff hbackslash).2 rfl
    rw [singleQuoted, if_pos h.lt_count, hascii, if_pos rfl, h.splitAt_eq]
    simp only [hcontinued, if_true]
    rfl
  | case4 hcontinued =>
    have hascii := (h.restAt.asciiAt_eq_some_iff hbackslash).2 rfl
    have hcount := h.count_line
    rw [byteCount_ascii hbackslash, byteCount_nil] at hcount
    rw [singleQuoted, if_pos h.lt_count, hascii, if_pos rfl, h.splitAt_eq]
    simp only [hcontinued, hcount, Nat.le_refl, if_true]
    rfl
  | case5 c later hcontinued ih =>
    have hascii := (h.restAt.asciiAt_eq_some_iff hbackslash).2 rfl
    have hnext : At line (i + 1) (before ++ ['\\']) (c :: later) := h.next hbackslash
    have hpos := byteCount_pos (List.cons_ne_nil c later)
    have hcount : ¬ byteCount line ≤ i + 1 := by
      rw [hnext.count_line]
      omega
    rw [singleQuoted, if_pos h.lt_count, hascii, if_pos rfl, h.splitAt_eq]
    simp only [hcontinued, hcount, if_false, Bool.false_eq_true]
    rw [hnext.restAt.skip_tail (f := singleQuoted line q) (fun _ _ => singleQuoted_of_high q),
      ih hnext.behind, SingleQuoted.ofBody_cons, byteCount_ascii hbackslash, byteCount_singleton,
      Nat.add_assoc]
  | case6 rest hfeeds hslashes =>
    have hascii := (h.restAt.asciiAt_eq_some_iff (Quote.ascii q)).2 rfl
    rw [singleQuoted, if_pos h.lt_count, hascii,
      if_neg (fun heq => q.char_ne.1 (Option.some.inj heq)),
      if_neg (fun heq => q.char_ne.2.2 (Option.some.inj heq)), if_pos rfl]
    simp only [SingleQuoted.ofBody, byteCount_ascii (Quote.ascii q), byteCount_nil]
  | case7 c rest hfeeds hslashes hquote ih =>
    have hnot : ∀ {a : Char}, a.toNat < 0x80 → c ≠ a → asciiAt (encode line) i ≠ some a := by
      intro a ha hne
      rw [ne_eq, h.restAt.asciiAt_eq_some_iff ha]
      exact fun heq => hne (Option.some.inj heq)
    rw [singleQuoted, if_pos h.lt_count, if_neg (hnot hbackslash hslashes),
      if_neg (hnot hfeed hfeeds), if_neg (hnot (Quote.ascii q) hquote),
      h.restAt.skip_tail (f := singleQuoted line q) (fun _ _ => singleQuoted_of_high q),
      ih h.behind, SingleQuoted.ofBody_cons, byteCount_singleton]

theorem offsetWhere?_eq (member : Char → Bool) (text : Text) :
    (offsetWhere? (!member ·) text).getD (byteCount text) =
      byteCount (text.takeWhile member) := by
  induction text with
  | nil => rfl
  | cons c rest ih =>
    by_cases hc : member c
    · rw [List.takeWhile_cons_of_pos hc, byteCount_cons, byteCount_cons, ← ih]
      simp only [offsetWhere?, hc, Bool.not_true, Bool.false_eq_true, if_false]
      cases offsetWhere? (!member ·) rest <;> rfl
    · rw [List.takeWhile_cons_of_neg hc]
      simp only [offsetWhere?, hc, Bool.not_false, if_true]
      rfl

/-- A run of characters ends between two characters of its line. -/
theorem runStop_eq {line before : Text} (member : Char → Bool) (h : At line i before rest) :
    runStop member line i = .ok (i + byteCount (rest.takeWhile member)) := by
  rw [runStop, h.splitAt_eq, ← offsetWhere?_eq]
  simp only [bind, Except.bind, pure, Except.pure]
  cases offsetWhere? (!member ·) rest with
  | none => exact congrArg Except.ok h.count_line
  | some offset => rfl

/-- The longest operator is found by its bytes. -/
theorem operatorLength?_eq (text : Text) :
    operatorLength? text = (Operator.longest? text).map byteCount := by
  have hall : Operator.table.all (·.all (·.toNat < 0x80)) := by decide
  have hascii : ∀ a ∈ Operator.table, ∀ c ∈ a, c.toNat < 0x80 := fun a ha c hc =>
    of_decide_eq_true (List.all_eq_true.1 (List.all_eq_true.1 hall a ha) c hc)
  have hany : ∀ n, isOperatorAt text n ↔
      n ≤ text.length ∧ text.take n ∈ Operator.table := by
    intro n
    rw [isOperatorAt, any_takeBytes? fun a ha => hascii a (List.contains_iff_mem.1 ha),
      Bool.and_eq_true, decide_eq_true_eq, List.contains_iff_mem]
  cases hlongest : Operator.longest? text with
  | none =>
    refine List.find?_eq_none.2 fun n _ hn => ?_
    have hstarts := List.find?_eq_none.1 hlongest _ ((hany n).1 hn).2
    exact hstarts (List.isPrefixOf_iff_prefix.2 (List.take_prefix n text))
  | some operator =>
    have hmem := List.mem_of_find?_eq_some hlongest
    have hstarts : operator <+: text := ⟨_, Operator.longest?_append hlongest⟩
    have hlengths : ∀ a ∈ Operator.table, a.length = 1 ∨ a.length = 2 ∨ a.length = 3 := by decide
    have hfound : isOperatorAt text operator.length := by
      refine (hany _).2 ⟨hstarts.length_le, ?_⟩
      rwa [← List.prefix_iff_eq_take.1 hstarts]
    have hlonger : ∀ n, operator.length < n → ¬ isOperatorAt text n := by
      intro n hn htaken
      obtain ⟨hle, htable⟩ := (hany n).1 htaken
      have hbound := Operator.length_le_of_longest? hlongest htable (List.take_prefix n text)
      rw [List.length_take, Nat.min_eq_left hle] at hbound
      omega
    rw [Option.map_some, byteCount_of_ascii (hascii operator hmem), operatorLength?]
    rcases hlengths operator hmem with hlength | hlength | hlength <;>
      rw [hlength] at hfound hlonger ⊢
    · rw [List.find?_cons_of_neg (hlonger 3 (by omega)),
        List.find?_cons_of_neg (hlonger 2 (by omega)), List.find?_cons_of_pos hfound]
    · rw [List.find?_cons_of_neg (hlonger 3 (by omega)), List.find?_cons_of_pos hfound]
    · rw [List.find?_cons_of_pos hfound]

/-- Letters of a literal have as many bytes as characters. -/
theorem at_of_isLetters {text : Text} {n : Nat} (hle : n ≤ text.length)
    (h : isLetters (text.take n)) : At text n (text.take n) (text.drop n) where
  append_eq := List.take_append_drop n text
  count_eq := by
    rw [byteCount_of_ascii (ascii_of_isLetters h), List.length_take, Nat.min_eq_left hle]

theorem isPrefixAt_eq {n : Nat} (hn : 0 < n) (text : Text) :
    isPrefixAt text n = (lettersAt text n).isSome := by
  have hascii : ∀ a : Text, letterTable.contains (a.map Char.toLower) → ∀ c ∈ a, c.toNat < 0x80 :=
    fun a ha => ascii_of_isLetters (Bool.or_eq_true_iff.2 (.inr ha))
  rw [isPrefixAt, any_takeBytes? hascii, lettersAt]
  rcases Nat.lt_or_ge text.length n with hlt | hle
  · rw [decide_eq_false (by omega), List.drop_of_length_le (by omega)]
    rfl
  · have hletters : letterTable.contains ((text.take n).map Char.toLower) =
        isLetters (text.take n) := by
      have hne : (text.take n).isEmpty = false := by
        rw [List.isEmpty_eq_false_iff, ← List.length_pos_iff, List.length_take]
        omega
      rw [isLetters, hne, Bool.false_or]
    rw [decide_eq_true hle, Bool.true_and, hletters]
    by_cases hcontains : isLetters (text.take n)
    · rw [(at_of_isLetters hle hcontains).restAt.any_asciiAt fun _ => ascii_of_quote, hcontains]
      cases text.drop n with
      | nil => rfl
      | cons c rest => simp
    · rw [Bool.not_eq_true] at hcontains
      rw [hcontains]
      cases text.drop n <;> rfl

theorem byteCount_of_lettersAt {text letters after : Text} {q : Quote} {n : Nat}
    (h : lettersAt text n = some (letters, q, after)) : byteCount letters = n := by
  unfold lettersAt at h
  split at h
  · cases h
  · rename_i c rest hdrop
    split at h
    · rename_i hletters
      obtain ⟨r, -, heq⟩ := Option.map_eq_some_iff.1 h
      cases heq
      have hle : n ≤ text.length := by
        have hlength := congrArg List.length hdrop
        rw [List.length_drop, List.length_cons] at hlength
        omega
      exact (at_of_isLetters hle hletters).count_eq
    · cases h

/-- The letters before a quote are found by their bytes. -/
theorem prefixLength?_eq {c : Char} (hc : Quote.ofChar? c = none) (rest : Text) :
    prefixLength? (c :: rest) =
      (lettersBeforeQuote (c :: rest)).map fun (letters, _, _) => byteCount letters := by
  have hzero : lettersAt (c :: rest) 0 = none := by
    simp only [lettersAt, List.drop_zero, hc, Option.map_none, ite_self]
  rw [lettersBeforeQuote_eq, List.findSome?_cons, hzero, prefixLength?]
  simp only [List.find?_cons, List.find?_nil, List.findSome?_cons, List.findSome?_nil,
    isPrefixAt_eq Nat.one_pos, isPrefixAt_eq Nat.two_pos]
  cases hone : lettersAt (c :: rest) 1 with
  | some r => exact congrArg some (byteCount_of_lettersAt hone).symm
  | none =>
    cases htwo : lettersAt (c :: rest) 2 with
    | some r => exact congrArg some (byteCount_of_lettersAt htwo).symm
    | none => rfl

end Agreement

end ByteLexer

end SourceTokens
