import Mathlib.Data.List.Basic
import SourceTokens.Proofs.Shapes

/-!
How the rest of a line is scanned. Each front is a piece of one of a few forms or leaves the line
unfinished, and what holds of every front holds of the scan, because a scan is a front and the scan
of what is behind it. A line that is finished and has a terminator ends in a line break, unless that
terminator belongs to unrecognized text.
-/

namespace SourceTokens

def TokenKind.marksBlock : TokenKind → Bool
  | indent | dedent | endMarker => true
  | _ => false

namespace Number

variable {text rest : Text} {n m : Nat}

def isPart (c : Char) : Bool := c.isAlphanum || c == '_' || c == '.' || c == '+' || c == '-'

def Within (text : Text) (n : Nat) : Prop := ∀ c ∈ text.take n, isPart c

theorem isPart_of_isDigit {c : Char} (h : c.isDigit) : isPart c := by
  simp [isPart, Char.isAlphanum, h]

theorem within_zero : Within text 0 := by simp [Within]

theorem within_cons {c : Char} (hc : isPart c) (h : Within rest n) : Within (c :: rest) (n + 1) :=
  List.forall_mem_cons.2 ⟨hc, h⟩

theorem within_add (hn : Within text n) (hm : Within (text.drop n) m) : Within text (n + m) := by
  rw [Within, List.take_add]
  exact List.forall_mem_append.2 ⟨hn, hm⟩

theorem run_within {isDigit : Char → Bool} (hdigit : ∀ c, isDigit c → isPart c) (text : Text) :
    Within text (run isDigit text) := by
  fun_induction run isDigit text with
  | case1 d rest hd ih => exact within_cons rfl (within_cons (hdigit d hd) ih)
  | case2 => exact within_zero
  | case3 c rest _ hc ih => exact within_cons (hdigit c hc) ih
  | case4 => exact within_zero
  | case5 => exact within_zero

theorem digits_within (text : Text) : Within text (digits text) := by
  unfold digits
  split
  · exact within_zero
  · split
    · rename_i hc
      exact within_cons (isPart_of_isDigit hc) (run_within (fun _ => isPart_of_isDigit) _)
    · exact within_zero

theorem sign_within (text : Text) : Within text (sign text) := by
  unfold sign
  split
  · exact within_cons rfl within_zero
  · exact within_cons rfl within_zero
  · exact within_zero

theorem exponent_within (text : Text) : Within text (exponent text) := by
  unfold exponent
  split
  · exact within_zero
  · rename_i c rest
    split
    · rename_i hc
      have hpart : isPart c := by rcases hc with rfl | rfl <;> rfl
      simp only
      split
      · exact within_zero
      · rw [Nat.add_assoc, Nat.add_comm]
        exact within_cons hpart (within_add (sign_within rest) (digits_within _))
    · exact within_zero

theorem pointFloat_within (text : Text) : Within text (pointFloat text) := by
  unfold pointFloat
  simp only
  split
  · rename_i rest hrest
    split
    · exact within_zero
    · rw [Nat.add_assoc, Nat.add_assoc]
      refine within_add (digits_within text) ?_
      rw [hrest, Nat.add_comm]
      exact within_cons rfl (within_add (digits_within rest) (exponent_within _))
  · exact within_zero

theorem exponentFloat_within (text : Text) : Within text (exponentFloat text) := by
  unfold exponentFloat
  simp only
  split
  · exact within_zero
  · exact within_add (digits_within text) (exponent_within _)

theorem firstPresent_within {lengths : List Nat} (h : ∀ n ∈ lengths, Within text n) :
    Within text (firstPresent lengths) := by
  induction lengths with
  | nil => exact within_zero
  | cons n later ih =>
    obtain ⟨hn, hlater⟩ := List.forall_mem_cons.1 h
    unfold firstPresent
    split
    · exact ih hlater
    · exact hn

theorem imaginary_within (h : Within text n) : Within text (imaginary n text) := by
  unfold imaginary
  split
  · rename_i c rest hrest
    split
    · rename_i hc
      have hpart : isPart c := by rcases hc.2 with rfl | rfl <;> rfl
      refine within_add h ?_
      rw [hrest]
      exact within_cons hpart within_zero
    · exact within_zero
  · exact within_zero

theorem isPart_of_toLower {c letter : Char} (hletter : letter.isAlpha) (h : c.toLower = letter) :
    isPart c := by
  have halpha : c.isAlpha := by
    unfold Char.toLower at h
    split at h
    · rename_i hrange
      have hupper : c.isUpper := decide_eq_true hrange
      exact Bool.or_eq_true_iff.2 (Or.inl hupper)
    · rwa [h]
  simp [isPart, Char.isAlphanum, halpha]

theorem based_within {letter : Char} {isDigit : Char → Bool} (hletter : letter.isAlpha)
    (hdigit : ∀ c, isDigit c → isPart c) (text : Text) :
    Within text (based letter isDigit text) := by
  unfold based
  split
  · rename_i c rest
    simp only
    split
    · rename_i hc
      have hpart := isPart_of_toLower hletter hc.1
      exact within_cons rfl (within_cons hpart (run_within hdigit rest))
    · exact within_zero
  · exact within_zero

theorem isPart_of_isHexDigit {c : Char} (h : isHexDigit c) : isPart c := by
  simp only [isHexDigit, Bool.or_eq_true, Bool.and_eq_true, decide_eq_true_eq, Char.le_def] at h
  have halphanum : c.isAlphanum := by
    rcases h with (hdigit | hlower) | hupper
    · exact Bool.or_eq_true_iff.2 (Or.inr hdigit)
    · have hz : c.val ≤ 'z'.val := UInt32.le_trans hlower.2 (by decide)
      have hc : c.isLower := Bool.and_eq_true_iff.2 ⟨decide_eq_true hlower.1, decide_eq_true hz⟩
      have halpha : c.isAlpha := Bool.or_eq_true_iff.2 (Or.inr hc)
      exact Bool.or_eq_true_iff.2 (Or.inl halpha)
    · have hz : c.val ≤ 'Z'.val := UInt32.le_trans hupper.2 (by decide)
      have hc : c.isUpper := decide_eq_true ⟨hupper.1, hz⟩
      have halpha : c.isAlpha := Bool.or_eq_true_iff.2 (Or.inl hc)
      exact Bool.or_eq_true_iff.2 (Or.inl halpha)
  simp [isPart, halphanum]

theorem isPart_of_isOctalDigit {c : Char} (h : isOctalDigit c) : isPart c := by
  simp only [isOctalDigit, Bool.and_eq_true, decide_eq_true_eq, Char.le_def] at h
  have hnine : c.val ≤ '9'.val := UInt32.le_trans h.2 (by decide)
  have hdigit : c.isDigit := by
    simp only [Char.isDigit, Bool.and_eq_true, decide_eq_true_eq]
    exact ⟨h.1, hnine⟩
  exact isPart_of_isDigit hdigit

theorem isPart_of_isBinaryDigit {c : Char} (h : isBinaryDigit c) : isPart c := by
  simp only [isBinaryDigit, Bool.or_eq_true, beq_iff_eq] at h
  rcases h with rfl | rfl <;> rfl

theorem decimal_within (text : Text) : Within text (decimal text) := by
  unfold decimal
  split
  · exact within_zero
  · split
    · rename_i hc
      rw [hc]
      refine within_cons rfl (run_within ?_ _)
      intro d hd
      rw [beq_iff_eq.1 hd]
      rfl
    · exact digits_within _

/-- A numeric literal is made of the characters of such literals only. -/
theorem length_within (text : Text) : Within text (length text) := by
  have hfloat : Within text (float text) := by
    apply firstPresent_within
    simp [pointFloat_within, exponentFloat_within]
  apply firstPresent_within
  simp only [List.forall_mem_cons, List.not_mem_nil, false_implies, implies_true, and_true]
  exact ⟨imaginary_within (digits_within text), imaginary_within hfloat, hfloat,
    based_within rfl (fun _ => isPart_of_isHexDigit) text,
    based_within rfl (fun _ => isPart_of_isBinaryDigit) text,
    based_within rfl (fun _ => isPart_of_isOctalDigit) text, decimal_within text⟩

end Number

namespace StringLiteral

theorem isLetters_of_lettersBeforeQuote {text letters rest : Text} {q : Quote}
    (h : lettersBeforeQuote text = some (letters, q, rest)) : isLetters letters := by
  obtain ⟨n, -, hn⟩ := List.exists_of_findSome?_eq_some h
  split at hn
  · cases hn
  · split at hn
    · rename_i hletters
      obtain ⟨r, -, heq⟩ := Option.map_eq_some_iff.1 hn
      cases heq
      exact hletters
    · cases hn

/-- A literal begins with a quote or with one of four letters. -/
theorem begins_of_lettersBeforeQuote {c : Char} {rest letters after : Text} {q : Quote}
    (h : lettersBeforeQuote (c :: rest) = some (letters, q, after)) :
    c = q.char ∨ c.toLower ∈ ['b', 'r', 'u', 'f'] := by
  have htext := lettersBeforeQuote_append h
  have hletters := isLetters_of_lettersBeforeQuote h
  cases letters with
  | nil =>
    obtain ⟨hc, -⟩ := List.cons.inj htext
    exact .inl hc.symm
  | cons d more =>
    obtain ⟨rfl, -⟩ := List.cons.inj htext
    have hhead : ∀ entry ∈ letterTable, entry.headD 'b' ∈ ['b', 'r', 'u', 'f'] := by decide
    exact .inr (hhead _ (List.contains_iff_mem.1 hletters))

theorem exists_closer_of_split {d : Delimiter} {text body after : Text}
    (h : splitAtCloser d text = some (body, after)) : ∃ front, body = front ++ d.text := by
  fun_induction splitAtCloser d text generalizing body after with
  | case1 => cases h
  | case2 c rest ih =>
    obtain ⟨⟨body', after'⟩, hsplit, heq⟩ := Option.map_eq_some_iff.1 h
    cases heq
    obtain ⟨front, rfl⟩ := ih hsplit
    exact ⟨'\\' :: c :: front, rfl⟩
  | case3 c rest hc hprefix =>
    cases h
    exact ⟨[], rfl⟩
  | case4 c rest hc hprefix ih =>
    obtain ⟨⟨body', after'⟩, hsplit, heq⟩ := Option.map_eq_some_iff.1 h
    cases heq
    obtain ⟨front, rfl⟩ := ih hsplit
    exact ⟨c :: front, rfl⟩

theorem exists_quote_of_readBody {q : Quote} {text body after : Text}
    (h : readBody q text = .closed body after) : ∃ front, body = front ++ [q.char] := by
  fun_induction readBody q text generalizing body after with
  | case1 => cases h
  | case2 => cases h
  | case3 => cases h
  | case4 => cases h
  | case5 c later hc ih =>
    obtain ⟨rest, hrest, rfl⟩ := Body.cons_eq_closed h
    obtain ⟨front, rfl⟩ := ih hrest
    exact ⟨'\\' :: c :: front, rfl⟩
  | case6 =>
    cases h
    exact ⟨[], rfl⟩
  | case7 c rest hn hb hq ih =>
    obtain ⟨tail, htail, rfl⟩ := Body.cons_eq_closed h
    obtain ⟨front, rfl⟩ := ih htail
    exact ⟨c :: front, rfl⟩

theorem exists_quote_of_delimiter (d : Delimiter) : ∃ front, d.text = front ++ [d.quote.char] := by
  obtain ⟨quote, triple⟩ := d
  cases triple
  · exact ⟨[], rfl⟩
  · exact ⟨[quote.char, quote.char], rfl⟩

theorem eq_quote_of_mem_delimiter {d : Delimiter} {c : Char} (h : c ∈ d.text) :
    c = d.quote.char := by
  obtain ⟨quote, triple⟩ := d
  cases triple <;> simpa [Delimiter.text] using h

theorem quote_of_opens {d : Delimiter} {c : Char} {rest : Text}
    (h : d.text.isPrefixOf (c :: rest)) : c = d.quote.char := by
  obtain ⟨quote, triple⟩ := d
  cases triple <;> simp_all [Delimiter.text]

/-- A literal ends in a quote. -/
theorem exists_quote_of_read {text literal after : Text} (h : read text = .closed literal after) :
    ∃ front quote, literal = front ++ [Quote.char quote] := by
  unfold read at h
  split at h
  · cases h
  · rename_i letters q rest hletters
    split at h
    · simp only at h
      split at h
      · rename_i body after' hsplit
        cases h
        obtain ⟨front, hfront⟩ := exists_closer_of_split hsplit
        obtain ⟨quotes, hquotes⟩ := exists_quote_of_delimiter ⟨q, true⟩
        refine ⟨letters ++ Delimiter.text ⟨q, true⟩ ++ front ++ quotes, q, ?_⟩
        rw [hfront, hquotes]
        simp only [List.append_assoc]
      · cases h
    · split at h
      · rename_i body after' hbody
        cases h
        obtain ⟨front, rfl⟩ := exists_quote_of_readBody hbody
        exact ⟨letters ++ q.char :: front, q, by simp⟩
      · cases h
      · cases h

end StringLiteral

namespace LineScan

open StringLiteral

structure Plain (c : Char) (rest : Text) : Prop where
  blank : Text.isBlank c = false
  backslash : c ≠ '\\'
  feed : c ≠ '\n'
  returnFeed : ¬ (c = '\r' ∧ rest.head? = some '\n')
  comment : c ≠ '#'

/-- The pieces that a front can be, each with the text behind it. -/
inductive Taken (depth : Nat) (c : Char) (rest : Text) : Piece → Text → Prop
  | blanks (hc : Text.isBlank c) :
      Taken depth c rest (.gap ((c :: rest).takeWhile Text.isBlank))
        ((c :: rest).dropWhile Text.isBlank)
  | backslash (hc : c = '\\') (hrest : isContinuation (c :: rest) = false) :
      Taken depth c rest (.lexeme .unrecognized [c]) rest
  | feed (hc : c = '\n') : Taken depth c rest (.lexeme (lineBreakKind depth) [c]) rest
  | returnFeed (after : Text) (hc : c = '\r') (hrest : rest = '\n' :: after) :
      Taken depth c rest (.lexeme (lineBreakKind depth) ['\r', '\n']) after
  | comment (hc : c = '#') :
      Taken depth c rest (.lexeme .comment ((c :: rest).takeWhile fun c => !Text.isBreak c))
        ((c :: rest).dropWhile fun c => !Text.isBreak c)
  | number (hplain : Plain c rest) (length : Nat) (hlength : Number.length (c :: rest) = length)
      (hpos : 0 < length) :
      Taken depth c rest (.lexeme .number ((c :: rest).take length)) ((c :: rest).drop length)
  | string (hplain : Plain c rest) (hnumber : Number.length (c :: rest) = 0) (literal after : Text)
      (hread : StringLiteral.read (c :: rest) = .closed literal after) :
      Taken depth c rest (.lexeme .string literal) after
  | name (hplain : Plain c rest) (hnumber : Number.length (c :: rest) = 0)
      (hread : StringLiteral.read (c :: rest) = .none) (hc : Word.isStart c) :
      Taken depth c rest (.lexeme .name ((c :: rest).takeWhile Word.isContinue))
        ((c :: rest).dropWhile Word.isContinue)
  | numeral (hplain : Plain c rest) (hnumber : Number.length (c :: rest) = 0)
      (hread : StringLiteral.read (c :: rest) = .none) (hstart : Word.isStart c = false)
      (hc : Word.isContinue c) :
      Taken depth c rest (.lexeme .unrecognized ((c :: rest).takeWhile Word.isContinue))
        ((c :: rest).dropWhile Word.isContinue)
  | operator (hplain : Plain c rest) (hnumber : Number.length (c :: rest) = 0)
      (hread : StringLiteral.read (c :: rest) = .none) (hc : Word.isContinue c = false)
      (operator : Text) (hlongest : Operator.longest? (c :: rest) = some operator) :
      Taken depth c rest (.lexeme .operator operator) ((c :: rest).drop operator.length)
  | stray (hplain : Plain c rest) (hnumber : Number.length (c :: rest) = 0)
      (hread : StringLiteral.read (c :: rest) = .none) (hc : Word.isContinue c = false)
      (hlongest : Operator.longest? (c :: rest) = none) :
      Taken depth c rest (.lexeme .unrecognized [c]) rest

theorem taken_of_word {depth : Nat} {c : Char} {rest after : Text} {piece : Piece}
    (hplain : Plain c rest) (hnumber : Number.length (c :: rest) = 0)
    (hread : StringLiteral.read (c :: rest) = .none)
    (h : frontOfWord c rest = .piece piece after) : Taken depth c rest piece after := by
  unfold frontOfWord at h
  split at h
  · rename_i hstart
    cases h
    exact .name hplain hnumber hread hstart
  · rename_i hstart
    rw [Bool.not_eq_true] at hstart
    split at h
    · rename_i hcontinue
      cases h
      exact .numeral hplain hnumber hread hstart hcontinue
    · rename_i hcontinue
      rw [Bool.not_eq_true] at hcontinue
      unfold frontOfSymbol at h
      split at h
      · rename_i operator hlongest
        cases h
        exact .operator hplain hnumber hread hcontinue operator hlongest
      · rename_i hlongest
        cases h
        exact .stray hplain hnumber hread hcontinue hlongest

theorem taken_of_literal {depth : Nat} {c : Char} {rest after : Text} {piece : Piece}
    (hplain : Plain c rest) (h : frontOfLiteral c rest = .piece piece after) :
    Taken depth c rest piece after := by
  unfold frontOfLiteral at h
  simp only at h
  split at h
  · rename_i hnumber
    split at h
    · rename_i literal after' hread
      cases h
      exact .string hplain hnumber literal after hread
    · cases h
    · rename_i hread
      exact taken_of_word hplain hnumber hread h
  · rename_i n hnumber
    cases h
    exact .number hplain (n + 1) hnumber (Nat.succ_pos n)

theorem taken_of_front {depth : Nat} {c : Char} {rest after : Text} {piece : Piece}
    (h : front depth c rest = .piece piece after) : Taken depth c rest piece after := by
  unfold front at h
  split at h
  · rename_i hblank
    cases h
    exact .blanks hblank
  · rename_i hblank
    split at h
    · rename_i hbackslash
      split at h
      · cases h
      · rename_i hrest
        cases h
        exact .backslash hbackslash (Bool.not_eq_true _ ▸ hrest)
    · rename_i hbackslash
      split at h
      · rename_i hfeed
        cases h
        exact .feed hfeed
      · rename_i hfeed
        split at h
        · rename_i hreturn
          cases h
          obtain ⟨tail, htail⟩ := List.head?_eq_some_iff.1 hreturn.2
          rw [htail]
          exact .returnFeed tail hreturn.1 rfl
        · rename_i hreturn
          split at h
          · rename_i hcomment
            cases h
            exact .comment hcomment
          · rename_i hcomment
            rw [Bool.not_eq_true] at hblank
            exact taken_of_literal ⟨hblank, hbackslash, hfeed, hreturn, hcomment⟩ h

theorem front_of_plain (depth : Nat) {c : Char} {rest : Text} (h : Plain c rest) :
    front depth c rest = frontOfLiteral c rest := by
  rw [front, h.blank, if_neg Bool.false_ne_true, if_neg h.backslash, if_neg h.feed,
    if_neg h.returnFeed, if_neg h.comment]

theorem frontOfLiteral_of_none {c : Char} {rest : Text} (hnumber : Number.length (c :: rest) = 0)
    (hread : StringLiteral.read (c :: rest) = .none) :
    frontOfLiteral c rest = frontOfWord c rest := by
  simp only [frontOfLiteral, hnumber, hread]

theorem frontOfWord_of_symbol {c : Char} (rest : Text) (hc : Word.isContinue c = false) :
    frontOfWord c rest = frontOfSymbol c rest := by
  have hstart : ¬ Word.isStart c := by
    intro hstart
    rw [Word.isContinue_of_isStart hstart] at hc
    cases hc
  rw [frontOfWord, if_neg hstart, hc, if_neg Bool.false_ne_true]

/-- A front has one piece only. -/
theorem front_of_taken {depth : Nat} {c : Char} {rest after : Text} {piece : Piece}
    (h : Taken depth c rest piece after) : front depth c rest = .piece piece after := by
  cases h with
  | blanks hc => rw [front, if_pos hc]
  | backslash hc hrest =>
    subst hc
    rw [front, if_neg (by decide), if_pos rfl, hrest, if_neg Bool.false_ne_true]
  | feed hc =>
    subst hc
    rfl
  | returnFeed after hc hrest =>
    subst hc hrest
    rfl
  | comment hc =>
    subst hc
    rfl
  | number hplain length hlength hpos =>
    obtain ⟨n, rfl⟩ := Nat.exists_eq_add_of_lt hpos
    rw [Nat.zero_add] at hlength
    simp only [front_of_plain depth hplain, frontOfLiteral, hlength, Nat.zero_add]
  | string hplain hnumber literal after hread =>
    simp only [front_of_plain depth hplain, frontOfLiteral, hnumber, hread]
  | name hplain hnumber hread hc =>
    rw [front_of_plain depth hplain, frontOfLiteral_of_none hnumber hread, frontOfWord, if_pos hc]
    rfl
  | numeral hplain hnumber hread hstart hc =>
    rw [front_of_plain depth hplain, frontOfLiteral_of_none hnumber hread, frontOfWord, hstart,
      if_neg Bool.false_ne_true, if_pos hc]
    rfl
  | operator hplain hnumber hread hc operator hlongest =>
    rw [front_of_plain depth hplain, frontOfLiteral_of_none hnumber hread,
      frontOfWord_of_symbol rest hc]
    simp only [frontOfSymbol, hlongest]
  | stray hplain hnumber hread hc hlongest =>
    rw [front_of_plain depth hplain, frontOfLiteral_of_none hnumber hread,
      frontOfWord_of_symbol rest hc]
    simp only [frontOfSymbol, hlongest]

def TakenAs (c : Char) (rest value after : Text) : TokenKind → Prop
  | .comment => c = '#' ∧ value = (c :: rest).takeWhile fun c => !Text.isBreak c
  | .number => 0 < Number.length (c :: rest) ∧ value = (c :: rest).take (Number.length (c :: rest))
  | .string => StringLiteral.read (c :: rest) = .closed value after
  | .name => Word.isStart c ∧ value = (c :: rest).takeWhile Word.isContinue ∧
      after = (c :: rest).dropWhile Word.isContinue
  | .operator => Number.length (c :: rest) = 0 ∧ Operator.longest? (c :: rest) = some value
  | _ => True

theorem Taken.takenAs {depth : Nat} {c : Char} {rest value after : Text} {kind : TokenKind}
    (h : Taken depth c rest (.lexeme kind value) after) : TakenAs c rest value after kind := by
  have hbreak : ∀ text, TakenAs c rest text after (lineBreakKind depth) := by
    intro text
    unfold lineBreakKind
    split <;> trivial
  cases h with
  | feed => exact hbreak _
  | returnFeed => exact hbreak _
  | comment hc => exact ⟨hc, rfl⟩
  | number hplain length hlength hpos => exact ⟨hlength ▸ hpos, hlength ▸ rfl⟩
  | string hplain hnumber literal after hread => exact hread
  | name hplain hnumber hread hc => exact ⟨hc, rfl, rfl⟩
  | operator hplain hnumber hread hc operator hlongest => exact ⟨hnumber, hlongest⟩
  | backslash => trivial
  | numeral => trivial
  | stray => trivial

/-- A piece at a front leaves less text behind it. -/
theorem length_le_of_front {depth : Nat} {c : Char} {rest after : Text} {piece : Piece}
    (h : front depth c rest = .piece piece after) : after.length ≤ rest.length := by
  have hcovers := front_covers depth c rest
  rw [h] at hcovers
  have hlength := congrArg List.length hcovers.1
  have hpos := List.length_pos_iff.2 hcovers.2
  rw [List.length_append, List.length_cons] at hlength
  omega

theorem scanUpTo_congr {limit limit' depth : Nat} {text : Text} (h : text.length ≤ limit)
    (h' : text.length ≤ limit') : scanUpTo limit depth text = scanUpTo limit' depth text := by
  induction limit generalizing limit' depth text with
  | zero =>
    obtain rfl : text = [] := List.length_eq_zero_iff.1 (by omega)
    cases limit' <;> rfl
  | succ limit ih =>
    cases text with
    | nil => cases limit' <;> rfl
    | cons c rest =>
      rw [List.length_cons] at h h'
      obtain ⟨limit', rfl⟩ : ∃ n, limit' = n + 1 := ⟨limit' - 1, by omega⟩
      rw [scanUpTo, scanUpTo]
      cases hfront : front depth c rest with
      | continuation => rfl
      | unclosed d => rfl
      | piece piece after =>
        have hle := length_le_of_front hfront
        have hscan : scanUpTo limit (depthAfter depth piece) after =
            scanUpTo limit' (depthAfter depth piece) after := ih (by omega) (by omega)
        simp only [hscan]

/-- A scan is a front and the scan of what is behind it. -/
theorem scan_of_piece {depth : Nat} {c : Char} {rest after : Text} {piece : Piece}
    (h : front depth c rest = .piece piece after) :
    scan depth (c :: rest) = (scan (depthAfter depth piece) after).cons piece := by
  rw [scan, List.length_cons, scanUpTo, h]
  simp only
  rw [scan, scanUpTo_congr (length_le_of_front h) (Nat.le_refl _)]

/-- What holds of every front, and of a scan if it holds of what is behind its front, holds of every
scan. -/
@[elab_as_elim]
theorem scan_induction {P : Nat → Text → Result → Prop}
    (nil : ∀ depth, P depth [] ⟨[], depth, .nothing⟩)
    (piece : ∀ depth c rest piece after, Taken depth c rest piece after →
      piece.text ++ after = c :: rest →
      P (depthAfter depth piece) after (scan (depthAfter depth piece) after) →
      P depth (c :: rest) ((scan (depthAfter depth piece) after).cons piece))
    (continuation : ∀ depth c rest, isContinuation (c :: rest) →
      P depth (c :: rest) ⟨[.gap (c :: rest)], depth, .continuation⟩)
    (unclosed : ∀ depth c rest d, front depth c rest = .unclosed d →
      P depth (c :: rest) ⟨[], depth, .string d (c :: rest)⟩)
    (depth : Nat) (text : Text) : P depth text (scan depth text) := by
  induction hn : text.length using Nat.strong_induction_on generalizing depth text with
  | h n ih =>
    cases text with
    | nil => exact nil depth
    | cons c rest =>
      rw [List.length_cons] at hn
      cases hfront : front depth c rest with
      | piece first after =>
        have hle := length_le_of_front hfront
        have hcovers := front_covers depth c rest
        rw [hfront] at hcovers
        rw [scan_of_piece hfront]
        exact piece depth c rest first after (taken_of_front hfront) hcovers.1
          (ih after.length (by omega) _ after rfl)
      | continuation =>
        have hshape := front_wellShaped depth c rest
        rw [hfront] at hshape
        rw [scan, List.length_cons, scanUpTo, hfront]
        exact continuation depth c rest hshape
      | unclosed d =>
        rw [scan, List.length_cons, scanUpTo, hfront]
        exact unclosed depth c rest d hfront

theorem scan_depth (depth : Nat) (text : Text) :
    (scan depth text).depth = (scan depth text).pieces.foldl depthAfter depth := by
  induction depth, text using scan_induction with
  | nil => rfl
  | piece depth c rest piece after htaken hcover ih => exact ih
  | continuation => rfl
  | unclosed => rfl

/-- A piece opens one bracket at most. -/
theorem depthAfter_le (depth : Nat) (p : Piece) : depthAfter depth p ≤ depth + 1 := by
  unfold depthAfter
  split
  · unfold Operator.depthAfter
    split
    · exact Nat.le_refl _
    · split <;> omega
  · exact Nat.le_succ _

/-- No more brackets are opened than characters are scanned. -/
theorem depth_scan_le (depth : Nat) (text : Text) :
    (scan depth text).depth ≤ depth + text.length := by
  induction depth, text using scan_induction with
  | nil depth => exact Nat.le_refl _
  | piece depth c rest p after htaken hcover ih =>
    have hlength := congrArg List.length hcover
    have hcovers := front_covers depth c rest
    rw [front_of_taken htaken] at hcovers
    have hpos := List.length_pos_iff.2 hcovers.2
    have hle := depthAfter_le depth p
    rw [List.length_append] at hlength
    change (scan (depthAfter depth p) after).depth ≤ _
    omega
  | continuation => exact Nat.le_add_right _ _
  | unclosed => exact Nat.le_add_right _ _

/-- A line that goes on with a statement ends in the continuation. -/
theorem exists_continuation_of_scan {depth : Nat} {text : Text}
    (h : (scan depth text).carry = .continuation) :
    ∃ front mark, (scan depth text).pieces = front ++ [.gap mark] ∧ isContinuation mark := by
  induction depth, text using scan_induction with
  | nil => cases h
  | piece depth c rest piece after htaken hcover ih =>
    obtain ⟨front, mark, hpieces, hmark⟩ := ih h
    exact ⟨piece :: front, mark, congrArg (piece :: ·) hpieces, hmark⟩
  | continuation depth c rest hmark => exact ⟨[], c :: rest, rfl, hmark⟩
  | unclosed => cases h

/-- A string that a line leaves open covers some of the line. -/
theorem carry_ne_nil_of_scan {depth : Nat} {text opened : Text} {d : Delimiter}
    (h : (scan depth text).carry = .string d opened) : opened ≠ [] := by
  induction depth, text using scan_induction with
  | nil => cases h
  | piece depth c rest piece after htaken hcover ih => exact ih h
  | continuation => cases h
  | unclosed depth c rest d hfront =>
    cases h
    exact List.cons_ne_nil c rest

theorem unmarked_of_taken {depth : Nat} {c : Char} {rest after : Text} {kind : TokenKind}
    {text : Text} (h : Taken depth c rest (.lexeme kind text) after) : kind.marksBlock = false := by
  have hbreak : (lineBreakKind depth).marksBlock = false := by
    unfold lineBreakKind
    split <;> rfl
  cases h with
  | feed => exact hbreak
  | returnFeed => exact hbreak
  | backslash => rfl
  | comment => rfl
  | number => rfl
  | string => rfl
  | name => rfl
  | numeral => rfl
  | operator => rfl
  | stray => rfl

/-- The rest of a line neither begins nor ends blocks. -/
theorem scan_unmarked {depth : Nat} {text : Text} {kind : TokenKind} {lexeme : Text}
    (h : .lexeme kind lexeme ∈ (scan depth text).pieces) : kind.marksBlock = false := by
  induction depth, text using scan_induction with
  | nil => cases h
  | piece depth c rest piece after htaken hcover ih =>
    rcases List.mem_cons.1 h with rfl | h
    · exact unmarked_of_taken htaken
    · exact ih h
  | continuation => simp at h
  | unclosed => cases h

/-- Text of a class without the two characters of terminators ends in neither. -/
theorem not_break_of_all {p : Char → Bool} {text : Text} (hall : ∀ c ∈ text, p c)
    (hreturn : p '\r' = false) (hfeed : p '\n' = false) :
    text.getLast?.any Text.isBreak = false := by
  cases hlast : text.getLast? with
  | none => rfl
  | some c =>
    have hc := hall c (List.mem_of_getLast? hlast)
    cases hbreak : Text.isBreak c with
    | false => exact hbreak
    | true =>
      simp only [Text.isBreak, Bool.or_eq_true, beq_iff_eq] at hbreak
      rcases hbreak with rfl | rfl <;> simp_all

/-- A piece that ends in a break is the line break itself, or it is unrecognized. -/
theorem lineBreak_of_taken {depth : Nat} {c : Char} {rest after : Text} {piece : Piece}
    (h : Taken depth c rest piece after) (hlast : piece.text.getLast?.any Text.isBreak) :
    (∃ text, piece = .lexeme (lineBreakKind depth) text) ∨
      ∃ text, piece = .lexeme .unrecognized text := by
  have hrun : ∀ p : Char → Bool, p '\r' = false → p '\n' = false →
      ((c :: rest).takeWhile p).getLast?.any Text.isBreak = false := fun p =>
    not_break_of_all fun d hd => List.mem_takeWhile_imp hd
  cases h with
  | blanks hc => simp [Piece.text, hrun Text.isBlank rfl rfl] at hlast
  | backslash => exact Or.inr ⟨_, rfl⟩
  | feed => exact Or.inl ⟨_, rfl⟩
  | returnFeed => exact Or.inl ⟨_, rfl⟩
  | comment hc => simp [Piece.text, hrun (fun c => !Text.isBreak c) rfl rfl] at hlast
  | number hplain length hlength hpos =>
    have hwithin := Number.length_within (c :: rest)
    rw [hlength] at hwithin
    simp [Piece.text, not_break_of_all hwithin rfl rfl] at hlast
  | string hplain hnumber literal after hread =>
    obtain ⟨front, quote, rfl⟩ := exists_quote_of_read hread
    cases quote <;> simp [Piece.text, Quote.char, Text.isBreak] at hlast
  | name hplain hnumber hread hc => simp [Piece.text, hrun Word.isContinue rfl rfl] at hlast
  | numeral => exact Or.inr ⟨_, rfl⟩
  | operator hplain hnumber hread hc operator hlongest =>
    have hmem := List.mem_of_find?_eq_some hlongest
    have htable : ∀ entry ∈ Operator.table, entry.getLast?.any Text.isBreak = false := by decide
    simp [Piece.text, htable operator hmem] at hlast
  | stray => exact Or.inr ⟨_, rfl⟩

/-- A finished line with a terminator and without unrecognized text ends in a line break. -/
theorem exists_lineBreak_of_scan {depth : Nat} {text : Text}
    (hcarry : (scan depth text).carry = .nothing) (hlast : text.getLast?.any Text.isBreak)
    (hclean : ∀ stray, .lexeme .unrecognized stray ∉ (scan depth text).pieces) :
    ∃ front last, (scan depth text).pieces =
      front ++ [.lexeme (lineBreakKind (scan depth text).depth) last] := by
  induction depth, text using scan_induction with
  | nil => cases hlast
  | piece depth c rest piece after htaken hcover ih =>
    have hbehind : ∀ stray, .lexeme .unrecognized stray ∉
        (scan (depthAfter depth piece) after).pieces :=
      fun stray hmem => hclean stray (List.mem_cons_of_mem _ hmem)
    by_cases hafter : after = []
    · subst hafter
      rw [List.append_nil] at hcover
      rw [← hcover] at hlast
      rcases lineBreak_of_taken htaken hlast with ⟨last, rfl⟩ | ⟨stray, rfl⟩
      · have hdepth : depthAfter depth (.lexeme (lineBreakKind depth) last) = depth := by
          unfold lineBreakKind
          split <;> rfl
        refine ⟨[], last, ?_⟩
        simp only [hdepth]
        rfl
      · exact absurd (List.mem_cons_self ..) (hclean stray)
    · rw [← hcover, List.getLast?_append_of_ne_nil _ hafter] at hlast
      obtain ⟨front, last, hpieces⟩ := ih hcarry hlast hbehind
      exact ⟨piece :: front, last, congrArg (piece :: ·) hpieces⟩
  | continuation => cases hcarry
  | unclosed => cases hcarry

end LineScan

end SourceTokens
