import SourceTokens.Text

/-!
String literals. A literal is a few letters that say how it is read, an opening quote or three
of them, a body in which a backslash protects the character after it, and the same quotes
again. A body in three quotes may run over any number of lines. One in single quotes ends with
its line, unless that line ends in an unprotected backslash.
-/

namespace SourceTokens.StringLiteral

inductive Quote
  | single
  | double
  deriving DecidableEq, Repr

def Quote.char : Quote → Char
  | .single => '\x27'
  | .double => '"'

def Quote.ofChar? (c : Char) : Option Quote :=
  if c = Quote.single.char then some .single
  else if c = Quote.double.char then some .double
  else none

theorem Quote.char_ne (q : Quote) : q.char ≠ '\\' ∧ q.char ≠ '\r' ∧ q.char ≠ '\n' := by
  cases q <;> decide

structure Delimiter where
  quote : Quote
  triple : Bool
  deriving DecidableEq, Repr

def Delimiter.text (d : Delimiter) : Text :=
  if d.triple then [d.quote.char, d.quote.char, d.quote.char] else [d.quote.char]

def letterTable : List Text :=
  [['b'], ['r'], ['u'], ['f'], ['b', 'r'], ['r', 'b'], ['f', 'r'], ['r', 'f']]

def isLetters (text : Text) : Bool := text.isEmpty || letterTable.contains (text.map Char.toLower)

def lettersBeforeQuote (text : Text) : Option (Text × Quote × Text) :=
  [0, 1, 2].findSome? fun n =>
    match text.drop n with
    | [] => none
    | c :: rest =>
      if isLetters (text.take n) then (Quote.ofChar? c).map (text.take n, ·, rest) else none

theorem lettersBeforeQuote_append {text letters rest : Text} {q : Quote}
    (h : lettersBeforeQuote text = some (letters, q, rest)) :
    letters ++ q.char :: rest = text := by
  obtain ⟨n, -, hn⟩ := List.exists_of_findSome?_eq_some h
  split at hn
  · simp at hn
  · next c after hdrop =>
    split at hn
    · obtain ⟨r, hr, heq⟩ := Option.map_eq_some_iff.1 hn
      cases heq
      have hc : q.char = c := by
        unfold Quote.ofChar? at hr
        split at hr
        · cases hr; simp_all
        · split at hr
          · cases hr; simp_all
          · simp at hr
      rw [hc, ← hdrop, List.take_append_drop]
    · simp at hn

/-- The text up to the closing quotes and with them, and the text after them. A backslash
takes the next character with it, whatever that is. -/
def splitAtCloser (d : Delimiter) : Text → Option (Text × Text)
  | [] => none
  | '\\' :: c :: rest => (splitAtCloser d rest).map fun (body, after) => ('\\' :: c :: body, after)
  | c :: rest =>
    if d.text.isPrefixOf (c :: rest) then some (d.text, (c :: rest).drop d.text.length)
    else (splitAtCloser d rest).map fun (body, after) => (c :: body, after)

theorem splitAtCloser_cons {d : Delimiter} {c : Char} (hescape : c ≠ '\\') (rest : Text) :
    splitAtCloser d (c :: rest) =
      if d.text.isPrefixOf (c :: rest) then some (d.text, (c :: rest).drop d.text.length)
      else (splitAtCloser d rest).map fun (body, after) => (c :: body, after) :=
  splitAtCloser.eq_3 _ _ _ fun _ _ hc => absurd hc hescape

theorem splitAtCloser_append {d : Delimiter} {text body after : Text}
    (h : splitAtCloser d text = some (body, after)) : body ++ after = text := by
  fun_induction splitAtCloser d text generalizing body after with
  | case1 => simp at h
  | case2 c rest ih =>
    obtain ⟨⟨a, b⟩, hab, heq⟩ := Option.map_eq_some_iff.1 h
    cases heq
    simp [ih hab]
  | case3 c rest hc hpre =>
    cases h
    exact (List.prefix_iff_eq_append.1 (List.isPrefixOf_iff_prefix.1 hpre)).symm ▸ rfl
  | case4 c rest hc hpre ih =>
    obtain ⟨⟨a, b⟩, hab, heq⟩ := Option.map_eq_some_iff.1 h
    cases heq
    simp [ih hab]

def isContinuation (text : Text) : Bool := text == ['\\', '\n'] || text == ['\\', '\r', '\n']

def endsInContinuation (line : Text) : Bool :=
  ['\\', '\n'].isSuffixOf line || ['\\', '\r', '\n'].isSuffixOf line

inductive Body
  | closed (body after : Text)
  | continued
  | broken

def Body.cons (taken : Text) : Body → Body
  | .closed body after => .closed (taken ++ body) after
  | other => other

def readBody (q : Quote) : Text → Body
  | [] => .broken
  | '\n' :: _ => .broken
  | '\\' :: rest =>
    if isContinuation ('\\' :: rest) then .continued
    else match rest with
      | [] => .broken
      | c :: later => (readBody q later).cons ['\\', c]
  | c :: rest => if c = q.char then .closed [c] rest else (readBody q rest).cons [c]

theorem Body.cons_eq_closed {taken body after : Text} {b : Body}
    (h : b.cons taken = .closed body after) :
    ∃ rest, b = .closed rest after ∧ body = taken ++ rest := by
  cases b <;> simp_all [Body.cons]

theorem Body.cons_eq_continued {taken : Text} {b : Body} :
    b.cons taken = .continued ↔ b = .continued := by
  cases b <;> simp [Body.cons]

theorem Body.cons_eq_broken {taken : Text} {b : Body} : b.cons taken = .broken ↔ b = .broken := by
  cases b <;> simp [Body.cons]

theorem readBody_cons {q : Quote} {c : Char} (hfeed : c ≠ '\n') (hescape : c ≠ '\\') (rest : Text) :
    readBody q (c :: rest) =
      if c = q.char then .closed [c] rest else (readBody q rest).cons [c] :=
  readBody.eq_5 _ _ _ hfeed hescape

theorem readBody_append {q : Quote} {text body after : Text}
    (h : readBody q text = .closed body after) : body ++ after = text := by
  fun_induction readBody q text generalizing body after with
  | case1 => cases h
  | case2 => cases h
  | case3 => cases h
  | case4 => cases h
  | case5 hc c later ih =>
    obtain ⟨rest, hrest, rfl⟩ := Body.cons_eq_closed h
    simp [ih hrest]
  | case6 => cases h; rfl
  | case7 c rest hn hb hq ih =>
    obtain ⟨tail, htail, rfl⟩ := Body.cons_eq_closed h
    simp [ih htail]

inductive Opening
  | none
  | closed (literal after : Text)
  | unclosed (d : Delimiter)

def read (text : Text) : Opening :=
  match lettersBeforeQuote text with
  | Option.none => .none
  | some (letters, q, rest) =>
    if [q.char, q.char].isPrefixOf rest then
      let d : Delimiter := ⟨q, true⟩
      match splitAtCloser d (rest.drop 2) with
      | some (body, after) => .closed (letters ++ d.text ++ body) after
      | Option.none => .unclosed d
    else match readBody q rest with
      | .closed body after => .closed (letters ++ q.char :: body) after
      | .continued => .unclosed ⟨q, false⟩
      | .broken => .none

theorem read_append {text literal after : Text} (h : read text = .closed literal after) :
    literal ++ after = text := by
  unfold read at h
  split at h
  · cases h
  · next letters q rest hl =>
    have htext := lettersBeforeQuote_append hl
    split at h
    · next hq =>
      simp only at h
      split at h
      · next body tail hs =>
        cases h
        have hbody := splitAtCloser_append hs
        have hrest := List.prefix_iff_eq_append.1 (List.isPrefixOf_iff_prefix.1 hq)
        simp only [List.length_cons, List.length_nil] at hrest
        rw [← htext, ← hrest, ← hbody]
        simp [Delimiter.text]
      · cases h
    · split at h
      · next body tail hs =>
        cases h
        rw [← htext, ← readBody_append hs]
        simp
      · cases h
      · cases h

theorem read_ne_nil {text literal after : Text} (h : read text = .closed literal after) :
    literal ≠ [] := by
  unfold read at h
  split at h
  · cases h
  · split at h
    · simp only at h
      split at h
      · cases h; simp [Delimiter.text]
      · cases h
    · split at h
      · cases h; simp
      · cases h
      · cases h

end SourceTokens.StringLiteral
