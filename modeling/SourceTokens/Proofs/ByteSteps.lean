import SourceTokens.Proofs.ByteMachine
import SourceTokens.Proofs.Locality

/-!
One step of the lexer by byte offsets. From an offset between two characters it slices the line
between characters only, finds a number where it looks for one, and takes the front that a scan by
characters takes there. The offset that it goes on from stands between two characters again.
-/

namespace SourceTokens.ByteLexer

open StringLiteral LineScan Utf8

variable {line : Line} {before rest : Text} {pos : Nat}

theorem Line.position_eq (h : At line.text pos before rest) :
    line.position pos = .ok ⟨line.number, word before.length⟩ := by
  rw [Line.position, h.splitAt_eq]
  rfl

def Line.token (line : Line) (kind : TokenKind) (before value : Text) : Token :=
  ⟨kind, value, ⟨line.number, word before.length⟩, ⟨line.number, word (before ++ value).length⟩,
    some line.text⟩

namespace Machine

def add (m : Machine) (line : Line) (kind : TokenKind) (before value : Text) : Machine :=
  { m with tokens := m.tokens ++ [line.token kind before value] }

def leaveOpen (m : Machine) (line : Line) (before text : Text) (d : Delimiter) : Machine :=
  { m with opened := some ⟨⟨line.number, word before.length⟩, text, line.text, d⟩ }

theorem push_eq {value after : Text} {stop : Nat} (m : Machine) (kind : TokenKind)
    (h : At line.text pos before rest) (happend : value ++ after = rest)
    (hstop : stop = pos + byteCount value) :
    m.push kind pos stop line = .ok (m.add line kind before value) := by
  subst happend hstop
  rw [push, h.slice_eq, Line.position_eq h, Line.position_eq h.advance]
  rfl

theorem take_eq {value after : Text} {stop : Nat} (m : Machine) (kind : TokenKind)
    (h : At line.text pos before rest) (happend : value ++ after = rest)
    (hstop : stop = pos + byteCount value) :
    m.take kind pos stop line = .ok (.goesOn (m.add line kind before value) stop) := by
  rw [take, push_eq m kind h happend hstop]
  rfl

theorem openString_eq (m : Machine) (d : Delimiter) (h : At line.text pos before rest) :
    m.openString line pos d = .ok (m.leaveOpen line before rest d) := by
  rw [openString, Line.position_eq h, h.splitAt_eq]
  rfl

def behindString (m : Machine) (line : Line) (start : Nat) (before letters : Text) (q : Quote)
    (text : Text) : Opening → Machine × Nat
  | .closed literal _ => (m.add line .string before literal, start + byteCount literal)
  | .unclosed d => (m.leaveOpen line before text d, byteCount line.text)
  | .none =>
    if letters = [] then (m.add line .unrecognized before [q.char], start + 1) else (m, start)

section Strings

variable {letters : Text} {q : Quote}

/-- Behind three quotes a string is closed where the text is, or it stays open. -/
theorem lexTriple_eq {more : Text} (m : Machine)
    (h : At line.text pos before (letters ++ Delimiter.text ⟨q, true⟩ ++ more)) :
    m.lexTriple line pos (pos + byteCount letters) q =
      .ok (m.behindString line pos before letters q (letters ++ Delimiter.text ⟨q, true⟩ ++ more)
        (match splitAtCloser ⟨q, true⟩ more with
          | some (body, tail) => .closed (letters ++ Delimiter.text ⟨q, true⟩ ++ body) tail
          | none => .unclosed ⟨q, true⟩)) := by
  have hthree : byteCount (Delimiter.text ⟨q, true⟩) = 3 := by cases q <;> rfl
  have hmore := h.advance.restAt
  rw [byteCount_append, hthree, ← Nat.add_assoc] at hmore
  rw [lexTriple, closerEnd_eq ⟨q, true⟩ hmore]
  cases hsplit : splitAtCloser ⟨q, true⟩ more with
  | none =>
    simp only [Option.map_none, openString_eq m ⟨q, true⟩ h]
    rfl
  | some r =>
    obtain ⟨body, tail⟩ := r
    have happend : letters ++ Delimiter.text ⟨q, true⟩ ++ body ++ tail =
        letters ++ Delimiter.text ⟨q, true⟩ ++ more := by
      rw [← splitAtCloser_append hsplit, List.append_assoc]
    have hstop : pos + byteCount letters + 3 + byteCount body =
        pos + byteCount (letters ++ Delimiter.text ⟨q, true⟩ ++ body) := by
      rw [byteCount_append, byteCount_append, hthree]
      omega
    simp only [Option.map_some, push_eq m .string h happend hstop]
    rw [hstop]
    rfl

/-- Behind a single quote a string is closed where the text is, goes on or does not begin. -/
theorem lexSingle_eq {after : Text} (m : Machine)
    (h : At line.text pos before (letters ++ q.char :: after)) :
    m.lexSingle line pos (pos + byteCount letters) q =
      .ok (m.behindString line pos before letters q (letters ++ q.char :: after)
        (match readBody q after with
          | .closed body tail => .closed (letters ++ q.char :: body) tail
          | .continued => .unclosed ⟨q, false⟩
          | .broken => .none)) := by
  have hquote : At line.text (pos + byteCount letters) (before ++ letters) (q.char :: after) :=
    h.advance
  rw [lexSingle, singleQuoted_eq q (hquote.next (Quote.ascii q))]
  cases hread : readBody q after with
  | closed body tail =>
    have happend : letters ++ q.char :: body ++ tail = letters ++ q.char :: after := by
      rw [← readBody_append hread, List.append_assoc]
      rfl
    have hstop : pos + byteCount letters + 1 + byteCount body =
        pos + byteCount (letters ++ q.char :: body) := by
      rw [byteCount_append, byteCount_ascii (Quote.ascii q)]
      omega
    simp only [SingleQuoted.ofBody, bind, Except.bind, push_eq m .string h happend hstop]
    rw [hstop]
    rfl
  | continued =>
    simp only [SingleQuoted.ofBody, bind, Except.bind, openString_eq m ⟨q, false⟩ h]
    rfl
  | broken =>
    cases letters with
    | nil =>
      have happend : [q.char] ++ after = [] ++ q.char :: after := rfl
      have hstop : pos + 1 = pos + byteCount [q.char] := by
        rw [byteCount_ascii (Quote.ascii q), byteCount_nil]
      simp only [SingleQuoted.ofBody, byteCount_nil, Nat.add_zero, if_true, bind, Except.bind,
        push_eq m .unrecognized h happend hstop]
      rfl
    | cons c more =>
      have hpos := byteCount_pos (List.cons_ne_nil c more)
      have hne : pos + byteCount (c :: more) ≠ pos := by omega
      simp only [SingleQuoted.ofBody, bind, Except.bind, hne, if_false, behindString,
        List.cons_ne_nil]
      rfl

/-- A string is read as it is by characters. -/
theorem lexString_eq {after : Text} (m : Machine)
    (h : At line.text pos before (letters ++ q.char :: after))
    (hletters : lettersBeforeQuote (letters ++ q.char :: after) = some (letters, q, after)) :
    m.lexString line pos (pos + byteCount letters) =
      .ok (m.behindString line pos before letters q (letters ++ q.char :: after)
        (StringLiteral.read (letters ++ q.char :: after))) := by
  have hquote : At line.text (pos + byteCount letters) (before ++ letters) (q.char :: after) :=
    h.advance
  have hbyte : (encode line.text)[pos + byteCount letters]? = some (UInt8.ofNat q.char.toNat) := by
    rw [hquote.restAt.getElem?_eq, encode_cons, encodeChar_of_ascii (Quote.ascii q)]
    rfl
  have hq : (if asciiOf? (UInt8.ofNat q.char.toNat) = some Quote.single.char then Quote.single
      else .double) = q := by cases q <;> rfl
  have htriple : (Delimiter.text ⟨q, true⟩).isPrefixOf (q.char :: after) =
      [q.char, q.char].isPrefixOf after := by
    rw [Delimiter.text, if_pos rfl, List.isPrefixOf_cons_cons, beq_self_eq_true, Bool.true_and]
  rw [lexString]
  simp only [hbyte, hq, hquote.splitAt_eq, htriple, bind, Except.bind]
  unfold StringLiteral.read
  rw [hletters]
  by_cases hopens : [q.char, q.char].isPrefixOf after
  · obtain ⟨more, rfl⟩ := List.isPrefixOf_iff_prefix.1 hopens
    have hsplit : letters ++ q.char :: ([q.char, q.char] ++ more) =
        letters ++ Delimiter.text ⟨q, true⟩ ++ more := by
      rw [List.append_assoc]
      rfl
    rw [hsplit] at h ⊢
    simp only [hopens, if_true]
    exact lexTriple_eq m h
  · rw [Bool.not_eq_true] at hopens
    simp only [hopens, Bool.false_eq_true, if_false]
    exact lexSingle_eq m h

end Strings

def boundedDepth (m : Machine) : Piece → Except Fault Nat
  | .lexeme .operator text =>
    if Operator.openers.contains text then count m.checked (m.depth + 1)
    else if Operator.closers.contains text then .ok (m.depth - 1)
    else .ok m.depth
  | _ => .ok m.depth

theorem boundedDepth_eq {m : Machine} (h : m.depth + 1 < UInt32.size) (p : Piece) :
    m.boundedDepth p = .ok (depthAfter m.depth p) := by
  cases p with
  | gap => rfl
  | lexeme kind text =>
    cases kind with
    | operator =>
      simp only [boundedDepth, depthAfter, Operator.depthAfter, count_of_lt h]
      split
      · rfl
      · split <;> rfl
    | _ => rfl

theorem gives_boundedDepth (m : Machine) (p : Piece) :
    Gives m.checked (fun _ => True) (m.boundedDepth p) := by
  unfold boundedDepth
  split
  · split
    · exact gives_count m.checked _
    · split <;> exact .result _ trivial
  · exact .result _ trivial

/-- The brackets are the operators that begin with one. -/
theorem depthAfterChar_eq {operator : Text} {c : Char} (h : operator ∈ Operator.table)
    (hc : operator.head? = some c) (m : Machine) :
    m.depthAfterChar c = m.boundedDepth (.lexeme .operator operator) := by
  have hall : ∀ a ∈ Operator.table,
      (Operator.openers.contains a = true ↔
        a.head? = some '(' ∨ a.head? = some '[' ∨ a.head? = some '\x7b') ∧
      (Operator.closers.contains a = true ↔
        a.head? = some ')' ∨ a.head? = some ']' ∨ a.head? = some '\x7d') := by decide
  obtain ⟨hopeners, hclosers⟩ := hall operator h
  simp only [hc, Option.some.injEq] at hopeners hclosers
  simp only [boundedDepth, hopeners, hclosers, depthAfterChar]

def took (m : Machine) (line : Line) (before : Text) (depth : Nat) : Piece → Machine
  | .gap _ => m
  | .lexeme kind text => { m.add line kind before text with depth := depth }

end Machine

def Step.ofFront (m : Machine) (line : Line) (pos : Nat) (before text : Text) :
    Front → Except Fault Step
  | .piece p _ => do
    let depth ← m.boundedDepth p
    return .goesOn (m.took line before depth p) (pos + byteCount p.text)
  | .continuation => .ok (.finished { m with continued := true })
  | .unclosed d => .ok (.goesOn (m.leaveOpen line before text d) (byteCount line.text))

namespace Machine

variable {c : Char}

theorem take_of_front {kind : TokenKind} {value after : Text} {stop : Nat} {m : Machine}
    (h : At line.text pos before (c :: rest))
    (hfront : front m.depth c rest = .piece (.lexeme kind value) after) (hkind : kind ≠ .operator)
    (hstop : stop = pos + byteCount value) :
    m.take kind pos stop line =
      Step.ofFront m line pos before (c :: rest) (front m.depth c rest) := by
  have hcovers := front_covers m.depth c rest
  rw [hfront] at hcovers ⊢
  have hdepth : m.boundedDepth (.lexeme kind value) = .ok m.depth := by
    cases kind <;> first | rfl | exact absurd rfl hkind
  rw [take_eq m kind h hcovers.1 hstop, hstop]
  simp only [Step.ofFront, took, hdepth]
  rfl

theorem byteCount_take_number (text : Text) :
    byteCount (text.take (Number.length text)) = Number.length text := by
  have hascii : ∀ d ∈ text.take (Number.length text), d.toNat < 0x80 :=
    fun d hd => Number.ascii_of_isPart (Number.length_within text d hd)
  have hle := (Number.length_local text [] (by simp [Number.Bounds])).2
  rw [byteCount_of_ascii hascii, List.length_take, Nat.min_eq_left hle]

theorem lexNumber_eq {m : Machine} (h : At line.text pos before (c :: rest))
    (hplain : Plain c rest) (hnumber : Number.length (c :: rest) ≠ 0) :
    m.lexNumber line pos =
      Step.ofFront m line pos before (c :: rest) (front m.depth c rest) := by
  have htaken : Taken m.depth c rest _ _ := .number hplain _ rfl (Nat.pos_of_ne_zero hnumber)
  rw [lexNumber, numberEnd_eq h.restAt.shows, ends_of_ne hnumber]
  exact take_of_front h (front_of_taken htaken) (by decide) (by rw [byteCount_take_number])

theorem takeRun_eq {kind : TokenKind} {member : Char → Bool} {after : Text} {m : Machine}
    (h : At line.text pos before (c :: rest))
    (hfront : front m.depth c rest =
      .piece (.lexeme kind ((c :: rest).takeWhile member)) after) (hkind : kind ≠ .operator) :
    m.takeRun kind member pos line =
      Step.ofFront m line pos before (c :: rest) (front m.depth c rest) := by
  rw [takeRun, runStop_eq member h]
  exact take_of_front h hfront hkind rfl

section Literals

variable {m : Machine} (h : At line.text pos before (c :: rest)) (hplain : Plain c rest)
  (hnumber : Number.length (c :: rest) = 0)

include h hplain hnumber

theorem lexSymbol_eq (hread : StringLiteral.read (c :: rest) = .none)
    (hword : Word.isContinue c = false) :
    m.lexSymbol line pos c (c :: rest) =
      Step.ofFront m line pos before (c :: rest) (front m.depth c rest) := by
  rw [lexSymbol, operatorLength?_eq]
  cases hlongest : Operator.longest? (c :: rest) with
  | none =>
    have htaken : Taken m.depth c rest _ _ := .stray hplain hnumber hread hword hlongest
    exact take_of_front h (front_of_taken htaken) (by decide) (by rw [byteCount_singleton])
  | some operator =>
    have htaken : Taken m.depth c rest _ _ :=
      .operator hplain hnumber hread hword operator hlongest
    have happend := Operator.longest?_append hlongest
    have hhead : operator.head? = some c := by
      obtain ⟨d, more, rfl⟩ := List.exists_cons_of_ne_nil (Operator.longest?_ne_nil hlongest)
      exact congrArg some (List.cons.inj happend).1
    have hmem : operator ∈ Operator.table := List.mem_of_find?_eq_some hlongest
    rw [front_of_taken htaken, Step.ofFront]
    simp only [Option.map_some, depthAfterChar_eq hmem hhead, take_eq _ .operator h happend rfl]
    rfl

omit h in
/-- A string that is read at a front is the front. -/
theorem behindString_eq {letters : Text} {q : Quote}
    (hread : StringLiteral.read (c :: rest) ≠ .none) :
    Except.ok (Step.goesOn
        (m.behindString line pos before letters q (c :: rest) (StringLiteral.read (c :: rest))).1
        (m.behindString line pos before letters q (c :: rest) (StringLiteral.read (c :: rest))).2) =
      Step.ofFront m line pos before (c :: rest) (front m.depth c rest) := by
  cases hopening : StringLiteral.read (c :: rest) with
  | none => exact absurd hopening hread
  | closed literal after =>
    have htaken : Taken m.depth c rest _ _ := .string hplain hnumber literal after hopening
    rw [front_of_taken htaken]
    rfl
  | unclosed d =>
    have hfront : front m.depth c rest = .unclosed d := by
      simp only [front_of_plain m.depth hplain, frontOfLiteral, hnumber, hopening]
    rw [hfront]
    rfl

omit hplain hnumber in
/-- The offset behind a string that is read is not that of its letters. -/
theorem behindString_ne {letters : Text} {q : Quote}
    (hread : StringLiteral.read (c :: rest) ≠ .none) :
    (m.behindString line pos before letters q (c :: rest)
      (StringLiteral.read (c :: rest))).2 ≠ pos := by
  cases hopening : StringLiteral.read (c :: rest) with
  | none => exact absurd hopening hread
  | closed literal after =>
    have hpos := byteCount_pos (read_ne_nil hopening)
    change pos + byteCount literal ≠ pos
    omega
  | unclosed d => exact Nat.ne_of_gt h.lt_count

/-- A quote begins a string or is taken alone. -/
theorem lexQuote_eq {q : Quote} (hc : c = q.char) :
    m.lexQuote line pos =
      Step.ofFront m line pos before (c :: rest) (front m.depth c rest) := by
  subst hc
  have hletters : lettersBeforeQuote ([] ++ q.char :: rest) = some ([], q, rest) := by
    cases q <;> rfl
  have hstring : m.lexString line pos pos = _ := lexString_eq m h hletters
  rw [lexQuote, hstring]
  by_cases hread : StringLiteral.read (q.char :: rest) = .none
  · have hword : Word.isContinue q.char = false := by cases q <;> decide +kernel
    have hlongest : Operator.longest? (q.char :: rest) = none := by cases q <;> rfl
    have htaken : Taken m.depth q.char rest _ _ := .stray hplain hnumber hread hword hlongest
    rw [front_of_taken htaken]
    simp only [List.nil_append, hread, behindString, if_true, Step.ofFront, Piece.text,
      byteCount_ascii (Quote.ascii q), byteCount_nil]
    rfl
  · exact behindString_eq hplain hnumber hread

/-- Letters begin a string or a name. -/
theorem lexLetters_eq (hquote : Quote.ofChar? c = none) (hstart : Word.isStart c) :
    m.lexLetters line pos (c :: rest) =
      Step.ofFront m line pos before (c :: rest) (front m.depth c rest) := by
  have hname : StringLiteral.read (c :: rest) = .none →
      m.takeRun .name Word.isContinue pos line =
        Step.ofFront m line pos before (c :: rest) (front m.depth c rest) := by
    intro hread
    have htaken : Taken m.depth c rest _ _ := .name hplain hnumber hread hstart
    exact takeRun_eq h (front_of_taken htaken) (by decide)
  rw [lexLetters, prefixLength?_eq hquote]
  cases hletters : lettersBeforeQuote (c :: rest) with
  | none => exact hname (by rw [StringLiteral.read, hletters])
  | some r =>
    obtain ⟨letters, q, after⟩ := r
    have happend := lettersBeforeQuote_append hletters
    have hne : letters ≠ [] := by
      rintro rfl
      obtain ⟨rfl, -⟩ := List.cons.inj happend
      cases q <;> cases hquote
    have hstring : m.lexString line pos (pos + byteCount letters) =
        .ok (m.behindString line pos before letters q (c :: rest)
          (StringLiteral.read (c :: rest))) := by
      rw [← happend] at h hletters ⊢
      exact lexString_eq m h hletters
    simp only [Option.map_some, hstring, bind, Except.bind]
    by_cases hread : StringLiteral.read (c :: rest) = .none
    · simp only [hread, behindString, hne, if_false, if_true]
      exact hname hread
    · rw [if_neg (behindString_ne h hread)]
      exact behindString_eq hplain hnumber hread

end Literals

/-- No string begins with a character that is no quote and starts no word. -/
theorem read_eq_none (rest : Text) (hquote : Quote.ofChar? c = none)
    (hstart : Word.isStart c = false) : StringLiteral.read (c :: rest) = .none := by
  have hletters : lettersBeforeQuote (c :: rest) = none := by
    cases hbegins : lettersBeforeQuote (c :: rest) with
    | none => rfl
    | some r =>
      exfalso
      obtain ⟨letters, q, after⟩ := r
      rcases begins_of_lettersBeforeQuote hbegins with rfl | hlower
      · cases q <;> cases hquote
      · have hall : ∀ n < 0x80, (Char.ofNat n).toLower ∈ ['b', 'r', 'u', 'f'] →
            Word.isStart (Char.ofNat n) := by decide +kernel
        have hletters : ['b', 'r', 'u', 'f'].all Char.isAlpha := rfl
        have halpha := List.all_eq_true.1 hletters _ hlower
        have hascii := Number.ascii_of_isPart (Number.isPart_of_toLower halpha rfl)
        rw [← Char.ofNat_toNat c] at hlower hstart
        rw [hall c.toNat hascii hlower] at hstart
        cases hstart
  rw [StringLiteral.read, hletters]

/-- A literal, a name or a symbol is taken as it is by characters. -/
theorem lexLexeme_eq (m : Machine) (h : At line.text pos before (c :: rest))
    (hplain : Plain c rest) :
    m.lexLexeme line pos c (c :: rest) =
      Step.ofFront m line pos before (c :: rest) (front m.depth c rest) := by
  have hpoint : (c.isDigit ∨ c = '.' ∧ (asciiAt (encode line.text) (pos + 1)).any Char.isDigit) ↔
      Number.length (c :: rest) ≠ 0 := by
    rw [Number.length_ne_zero_iff]
    refine or_congr_right (and_congr_right fun hc => ?_)
    subst hc
    rw [(h.next (by decide)).restAt.any_asciiAt fun d hd =>
      Number.ascii_of_isPart (Number.isPart_of_isDigit hd)]
  unfold lexLexeme
  split
  · rename_i hdigit
    exact lexNumber_eq h hplain (hpoint.1 hdigit)
  · rename_i hdigit
    have hnumber : Number.length (c :: rest) = 0 := by
      by_contra hne
      exact hdigit (hpoint.2 hne)
    split
    · rename_i hquote
      obtain ⟨q, hq⟩ := Option.isSome_iff_exists.1 hquote
      exact lexQuote_eq h hplain hnumber (Quote.eq_of_ofChar? hq)
    · rename_i hquote
      have hnone : Quote.ofChar? c = none := by simpa using hquote
      split
      · rename_i hstart
        exact lexLetters_eq h hplain hnumber hnone hstart
      · rename_i hstart
        have hread := read_eq_none rest hnone (Bool.eq_false_iff.2 hstart)
        split
        · rename_i hword
          have htaken : Taken m.depth c rest _ _ :=
            .numeral hplain hnumber hread (Bool.eq_false_iff.2 hstart) hword
          exact takeRun_eq h (front_of_taken htaken) (by decide)
        · rename_i hword
          exact lexSymbol_eq h hplain hnumber hread (Bool.eq_false_iff.2 hword)

/-- What begins with a character is taken as it is by characters. -/
theorem stepAt_eq (m : Machine) (h : At line.text pos before (c :: rest))
    (hblank : Text.isBlank c = false) (hfeed : c = '\n' → rest = []) :
    m.stepAt line pos c (c :: rest) =
      Step.ofFront m line pos before (c :: rest) (front m.depth c rest) := by
  have hbreak : lineBreakKind m.depth ≠ .operator := by
    unfold lineBreakKind
    split <;> decide
  by_cases hbackslash : c = '\\'
  · subst hbackslash
    rw [stepAt, if_pos rfl]
    cases hcontinued : isContinuation ('\\' :: rest) with
    | true =>
      have hfront : front m.depth '\\' rest = .continuation := by
        rw [front, if_neg (by decide), if_pos rfl, if_pos hcontinued]
      rw [if_pos rfl, hfront]
      rfl
    | false =>
      have htaken : Taken m.depth '\\' rest _ _ := .backslash rfl hcontinued
      rw [if_neg Bool.false_ne_true]
      exact take_of_front h (front_of_taken htaken) (by decide) rfl
  · rw [stepAt, if_neg hbackslash]
    by_cases hfeeds : c = '\n'
    · obtain rfl := hfeed hfeeds
      have htaken : Taken m.depth c [] _ _ := .feed hfeeds
      rw [if_pos hfeeds]
      exact take_of_front h (front_of_taken htaken) hbreak h.count_line
    · rw [if_neg hfeeds]
      by_cases hreturn : c = '\r' ∧ ['\r', '\n'].isPrefixOf (c :: rest)
      · obtain ⟨after, hafter⟩ := List.isPrefixOf_iff_prefix.1 hreturn.2
        obtain ⟨-, hrest⟩ := List.cons.inj hafter
        have htaken : Taken m.depth c rest _ _ := .returnFeed after hreturn.1 hrest.symm
        rw [if_pos hreturn]
        exact take_of_front h (front_of_taken htaken) hbreak rfl
      · rw [if_neg hreturn]
        by_cases hcomment : c = '#'
        · have htaken : Taken m.depth c rest _ _ := .comment hcomment
          rw [if_pos hcomment]
          exact takeRun_eq h (front_of_taken htaken) (by decide)
        · rw [if_neg hcomment]
          refine lexLexeme_eq m h ⟨hblank, hbackslash, hfeeds, ?_, hcomment⟩
          rintro ⟨rfl, hhead⟩
          obtain ⟨after, rfl⟩ := List.head?_eq_some_iff.1 hhead
          exact hreturn ⟨rfl, rfl⟩

/-- One step passes over the blanks at an offset and takes the front behind them. -/
theorem step_eq (m : Machine) (h : At line.text pos before rest)
    (hfeed : '\n' ∉ line.text.dropLast) :
    m.step line pos = match rest.dropWhile Text.isBlank with
      | [] => .ok (.finished m)
      | c :: after =>
        Step.ofFront m line (pos + byteCount (rest.takeWhile Text.isBlank))
          (before ++ rest.takeWhile Text.isBlank) (c :: after) (front m.depth c after) := by
  have hascii : ∀ d ∈ rest.takeWhile Text.isBlank, d.toNat < 0x80 :=
    fun d hd => ascii_of_isBlank (List.mem_takeWhile_imp hd)
  have hbehind : At line.text (pos + byteCount (rest.takeWhile Text.isBlank))
      (before ++ rest.takeWhile Text.isBlank) (rest.dropWhile Text.isBlank) := by
    rw [← List.takeWhile_append_dropWhile (p := Text.isBlank) (l := rest)] at h
    exact h.advance
  rw [step, blanksEnd_eq h.restAt, ← byteCount_of_ascii hascii]
  cases hdrop : rest.dropWhile Text.isBlank with
  | nil =>
    rw [hdrop] at hbehind
    simp only [hbehind.splitAt_eq, bind, Except.bind]
    rfl
  | cons c after =>
    rw [hdrop] at hbehind
    have hblank : Text.isBlank c = false := by
      have hhead := List.head?_dropWhile_not Text.isBlank rest
      rw [hdrop] at hhead
      simpa using hhead
    have hend : c = '\n' → after = [] := by
      rintro rfl
      by_contra hne
      apply hfeed
      rw [← hbehind.append_eq, List.dropLast_append_of_ne_nil (List.cons_ne_nil _ _),
        List.dropLast_cons_of_ne_nil hne]
      simp
    simp only [hbehind.splitAt_eq, bind, Except.bind]
    exact stepAt_eq m hbehind hblank hend

end Machine

end SourceTokens.ByteLexer
