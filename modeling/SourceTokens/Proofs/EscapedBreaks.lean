import SourceTokens.Proofs.StringEnds

/-!
Line breaks in single quotes. On the line where a string in single quotes opens, the backslash in
front of the line break must not be escaped itself; on a later line only its presence counts. So
every line break of such a string stands behind a backslash, and each of them is escaped exactly if
on no later line that backslash is escaped.
-/

namespace SourceTokens

namespace StringLiteral

/-- The items of a text in single quotes: characters other than the quote, a backslash or a line
feed, and escapes, of which that of a carriage return may take a line feed with it. -/
inductive Itemized (q : Quote) : Text → Prop
  | nil : Itemized q []
  | plain (c : Char) (rest : Text) (hquote : c ≠ q.char) (hescape : c ≠ '\\') (hfeed : c ≠ '\n')
      (h : Itemized q rest) : Itemized q (c :: rest)
  | returnFeed (rest : Text) (h : Itemized q rest) : Itemized q ('\\' :: '\r' :: '\n' :: rest)
  | escape (c : Char) (rest : Text) (h : Itemized q rest) : Itemized q ('\\' :: c :: rest)

def backslashesAtEnd (text : Text) : Nat := (text.reverse.takeWhile (· == '\\')).length

/-- Whether the backslash in front of the terminator of a line is escaped itself. -/
def EscapesEnd (line : Text) : Prop :=
  ∃ front mark, line = front ++ '\\' :: mark ∧ (mark = ['\n'] ∨ mark = ['\r', '\n']) ∧
    backslashesAtEnd front % 2 = 1

variable {q : Quote} {c : Char} {rest text a b mark body after line : Text} {d : Delimiter}

theorem backslashesAtEnd_append (a b : Text) :
    backslashesAtEnd (a ++ b) =
      if backslashesAtEnd b = b.length then b.length + backslashesAtEnd a
      else backslashesAtEnd b := by
  unfold backslashesAtEnd
  rw [List.reverse_append, List.takeWhile_append, List.length_reverse]
  split
  · rw [List.length_append, List.length_reverse]
  · rfl

theorem backslashesAtEnd_cons (hc : c ≠ '\\') (rest : Text) :
    backslashesAtEnd (c :: rest) = backslashesAtEnd rest := by
  have hhead : backslashesAtEnd [c] = 0 := by simp [backslashesAtEnd, hc]
  rw [← List.singleton_append, backslashesAtEnd_append, hhead]
  split
  · rename_i hall
    exact hall.symm
  · rfl

/-- An escape does not change whether the backslash behind a text is escaped. -/
theorem backslashesAtEnd_escape (c : Char) (rest : Text) :
    backslashesAtEnd ('\\' :: c :: rest) % 2 = backslashesAtEnd rest % 2 := by
  have hhead : backslashesAtEnd ['\\', c] % 2 = 0 := by
    by_cases hc : c = '\\'
    · subst hc
      rfl
    · simp [backslashesAtEnd, hc]
  have hsplit : '\\' :: c :: rest = ['\\', c] ++ rest := rfl
  rw [hsplit, backslashesAtEnd_append]
  split <;> omega

theorem itemized_plain_iff (hescape : c ≠ '\\') :
    Itemized q (c :: rest) ↔ c ≠ q.char ∧ c ≠ '\n' ∧ Itemized q rest := by
  constructor
  · intro h
    cases h with
    | plain _ _ hquote _ hfeed h => exact ⟨hquote, hfeed, h⟩
    | returnFeed => exact absurd rfl hescape
    | escape => exact absurd rfl hescape
  · rintro ⟨hquote, hfeed, h⟩
    exact .plain c rest hquote hescape hfeed h

theorem itemized_escape_iff (hreturn : ¬ (c = '\r' ∧ rest.head? = some '\n')) :
    Itemized q ('\\' :: c :: rest) ↔ Itemized q rest := by
  constructor
  · intro h
    cases h with
    | plain _ _ _ hescape => exact absurd rfl hescape
    | returnFeed => exact absurd ⟨rfl, rfl⟩ hreturn
    | escape _ _ h => exact h
  · exact .escape c rest

theorem Itemized.append (ha : Itemized q a) (hb : Itemized q b) : Itemized q (a ++ b) := by
  induction ha with
  | nil => exact hb
  | plain c rest hquote hescape hfeed h ih => exact .plain c _ hquote hescape hfeed ih
  | returnFeed rest h ih => exact .returnFeed _ ih
  | escape c rest h ih => exact .escape c _ ih

/-- Behind a line feed a new item begins. -/
theorem Itemized.of_append (h : Itemized q (a ++ b)) (hfeed : EndsInFeed a) :
    Itemized q a ∧ Itemized q b := by
  cases a with
  | nil => exact ⟨.nil, h⟩
  | cons first a =>
    generalize htext : first :: a ++ b = text at h
    induction h generalizing first a with
    | nil => cases htext
    | plain c rest hquote hescape hnotFeed h ih =>
      obtain ⟨rfl, rfl⟩ := List.cons.inj htext
      cases a with
      | nil => exact absurd (hfeed _ rfl) hnotFeed
      | cons second a =>
        obtain ⟨ha, hb⟩ := ih second a hfeed.tail rfl
        exact ⟨.plain _ _ hquote hescape hnotFeed ha, hb⟩
    | returnFeed rest h ih =>
      rcases a with _ | ⟨second, _ | ⟨third, _ | ⟨fourth, a⟩⟩⟩
      · cases htext
        cases hfeed _ rfl
      · cases htext
        cases hfeed _ rfl
      · cases htext
        exact ⟨.returnFeed [] .nil, h⟩
      · cases htext
        obtain ⟨ha, hb⟩ := ih fourth a hfeed.tail.tail.tail rfl
        exact ⟨.returnFeed _ ha, hb⟩
    | escape c rest h ih =>
      rcases a with _ | ⟨second, _ | ⟨third, a⟩⟩
      · cases htext
        cases hfeed _ rfl
      · cases htext
        exact ⟨.escape c [] .nil, h⟩
      · cases htext
        obtain ⟨ha, hb⟩ := ih third a hfeed.tail.tail rfl
        exact ⟨.escape _ _ ha, hb⟩

theorem itemized_iff_even {front : Text} (hmark : mark = ['\n'] ∨ mark = ['\r', '\n'])
    (hfeed : '\n' ∉ front) (hsplit : splitAtCloser ⟨q, false⟩ (front ++ '\\' :: mark) = none) :
    Itemized q (front ++ '\\' :: mark) ↔ backslashesAtEnd front % 2 = 0 := by
  fun_induction splitAtCloser ⟨q, false⟩ front with
  | case1 =>
    refine iff_of_true ?_ rfl
    rcases hmark with rfl | rfl
    · exact .escape _ _ .nil
    · exact .returnFeed _ .nil
  | case2 c rest ih =>
    simp only [List.mem_cons, not_or] at hfeed
    have hreturn : ¬ (c = '\r' ∧ (rest ++ '\\' :: mark).head? = some '\n') := by
      rintro ⟨-, hhead⟩
      cases rest with
      | nil => cases hhead
      | cons e more => exact hfeed.2.2 (by simpa using Or.inl (Option.some.inj hhead).symm)
    rw [List.cons_append, List.cons_append, splitAtCloser, Option.map_eq_none_iff] at hsplit
    rw [backslashesAtEnd_escape, List.cons_append, List.cons_append, itemized_escape_iff hreturn]
    exact ih hfeed.2.2 hsplit
  | case3 c rest hc hstarts =>
    have hopens : (Delimiter.text ⟨q, false⟩).isPrefixOf (c :: rest ++ '\\' :: mark) := by
      rw [List.isPrefixOf_iff_prefix] at hstarts ⊢
      exact hstarts.trans (List.prefix_append _ _)
    have hbackslash : c ≠ '\\' := by
      rw [quote_of_opens hstarts]
      exact q.char_ne.1
    rw [List.cons_append] at hsplit hopens
    rw [splitAtCloser_cons hbackslash, if_pos hopens] at hsplit
    cases hsplit
  | case4 c rest hc hprefix ih =>
    simp only [List.mem_cons, not_or] at hfeed
    by_cases hbackslash : c = '\\'
    · subst hbackslash
      cases rest with
      | cons e more => exact absurd rfl (hc e more rfl)
      | nil =>
        rw [List.singleton_append, itemized_escape_iff (by simp)]
        refine iff_of_false ?_ (by decide)
        rcases hmark with rfl | rfl <;> simp [itemized_plain_iff]
    · have hquote : c ≠ q.char := by
        rintro rfl
        exact hprefix (by simp [Delimiter.text])
      rw [List.cons_append, splitAtCloser_cons hbackslash] at hsplit
      split at hsplit
      · cases hsplit
      · rw [backslashesAtEnd_cons hbackslash, List.cons_append, itemized_plain_iff hbackslash,
          and_iff_right hquote, and_iff_right (Ne.symm hfeed.1)]
        exact ih hfeed.2 (Option.map_eq_none_iff.1 hsplit)

theorem endsInContinuation_iff : endsInContinuation line ↔
    ∃ front mark, line = front ++ '\\' :: mark ∧ (mark = ['\n'] ∨ mark = ['\r', '\n']) := by
  simp only [endsInContinuation, Bool.or_eq_true, List.isSuffixOf_iff_suffix]
  constructor
  · rintro (⟨front, rfl⟩ | ⟨front, rfl⟩)
    · exact ⟨front, _, rfl, .inl rfl⟩
    · exact ⟨front, _, rfl, .inr rfl⟩
  · rintro ⟨front, mark, rfl, rfl | rfl⟩
    · exact .inl ⟨front, rfl⟩
    · exact .inr ⟨front, rfl⟩

theorem front_of_continuation_unique {front front' mark' : Text}
    (hmark : mark = ['\n'] ∨ mark = ['\r', '\n']) (hmark' : mark' = ['\n'] ∨ mark' = ['\r', '\n'])
    (h : front ++ '\\' :: mark = front' ++ '\\' :: mark') : front = front' := by
  rcases hmark with rfl | rfl <;> rcases hmark' with rfl | rfl
  · exact (List.append_inj' h rfl).1
  · have hreverse := congrArg List.reverse h
    simp at hreverse
  · have hreverse := congrArg List.reverse h
    simp at hreverse
  · exact (List.append_inj' h rfl).1

/-- A later line that leaves a string open consists of items exactly if the backslash in front of
its terminator is not escaped. -/
theorem itemized_iff_not_escapesEnd (hline : Text.OneLine line)
    (hsplit : splitAtCloser ⟨q, false⟩ line = none) (hend : endsInContinuation line) :
    Itemized q line ↔ ¬ EscapesEnd line := by
  obtain ⟨front, mark, rfl, hmark⟩ := endsInContinuation_iff.1 hend
  rw [itemized_iff_even hmark (hline.left (List.cons_ne_nil _ mark)) hsplit]
  constructor
  · rintro heven ⟨front', mark', heq, hmark', hodd⟩
    rw [front_of_continuation_unique hmark hmark' heq, hodd] at heven
    cases heven
  · intro hescapes
    by_contra hodd
    exact hescapes ⟨front, mark, rfl, hmark, by omega⟩

/-- On the line where it opens a string goes on only behind an escape of the line break. -/
theorem itemized_of_continued (h : readBody q text = .continued) :
    Itemized q text ∧ endsInContinuation text := by
  fun_induction readBody q text with
  | case1 => cases h
  | case2 => cases h
  | case3 rest hcontinuation =>
    rcases isContinuation_iff.1 hcontinuation with rfl | rfl
    · exact ⟨.escape _ _ .nil, rfl⟩
    · exact ⟨.returnFeed _ .nil, rfl⟩
  | case4 => cases h
  | case5 c later hcontinuation ih =>
    obtain ⟨hitems, hend⟩ := ih (Body.cons_eq_continued.1 h)
    obtain ⟨front, mark, rfl, hmark⟩ := endsInContinuation_iff.1 hend
    exact ⟨.escape c _ hitems, endsInContinuation_iff.2 ⟨'\\' :: c :: front, mark, rfl, hmark⟩⟩
  | case6 => cases h
  | case7 c rest hfeed hbackslash hquote ih =>
    obtain ⟨hitems, hend⟩ := ih (Body.cons_eq_continued.1 h)
    obtain ⟨front, mark, rfl, hmark⟩ := endsInContinuation_iff.1 hend
    exact ⟨.plain c _ hquote hbackslash hfeed hitems,
      endsInContinuation_iff.2 ⟨c :: front, mark, rfl, hmark⟩⟩

/-- What one pass meets in front of the closing quote consists of items if it holds no line feed. -/
theorem itemized_of_readsUpTo {passed : Text}
    (h : ReadsUpTo (Delimiter.text ⟨q, false⟩) text passed after) (hfeed : '\n' ∉ passed) :
    Itemized q passed := by
  induction h with
  | found after => exact .nil
  | escape c rest passed after h ih =>
    simp only [List.mem_cons, not_or] at hfeed
    exact .escape c passed (ih hfeed.2.2)
  | plain c rest passed after hescape hother h ih =>
    simp only [List.mem_cons, not_or] at hfeed
    have hquote : c ≠ q.char := by
      rintro rfl
      exact hother ⟨rest, rfl⟩
    exact .plain c passed hquote hescape (Ne.symm hfeed.1) (ih hfeed.2)

/-- The line breaks of a text in single quotes: each line ends in a backslash and its terminator,
the first one in a backslash that is not escaped, and the text consists of items exactly if on no
later line that backslash is escaped. -/
structure ContinuedLines (q : Quote) (text : Text) : Prop where
  ends : ∀ line ∈ Text.lines text, '\n' ∈ line → endsInContinuation line
  first : ∀ line ∈ (Text.lines text).head?, ¬ EscapesEnd line
  itemized_iff : Itemized q text ↔ ∀ line ∈ (Text.lines text).tail, ¬ EscapesEnd line

theorem lines_of_continuation (hline : Text.OneLine text) (hend : endsInContinuation text) :
    Text.lines text = [text] := by
  have hwhole : ∀ front : Text, text = front ++ ['\n'] → Text.lines text = [text] := by
    rintro front rfl
    exact Text.lines_of_feed (hline.left (List.cons_ne_nil _ _))
  obtain ⟨front, mark, htext, rfl | rfl⟩ := endsInContinuation_iff.1 hend
  · exact hwhole (front ++ ['\\']) (by simpa using htext)
  · exact hwhole (front ++ ['\\', '\r']) (by simpa using htext)

theorem lines_append_of_endsInFeed (ha : EndsInFeed a) (b : Text) :
    Text.lines (a ++ b) = Text.lines a ++ Text.lines b := by
  refine Text.lines_append ?_ b
  cases hlast : a.getLast? with
  | none => exact .inl (List.getLast?_eq_none_iff.1 hlast)
  | some c => exact .inr (congrArg some (ha c hlast))

theorem feed_of_escapesEnd (h : EscapesEnd line) : '\n' ∈ line := by
  obtain ⟨front, mark, rfl, rfl | rfl, -⟩ := h <;> simp

/-- The lines of a string that is open are continued. -/
theorem Opened.continuedLines (h : Opened d body) (hsingle : d.triple = false) :
    Text.lines body ≠ [] ∧ ContinuedLines d.quote body := by
  induction h with
  | triple rest htriple =>
    rw [hsingle] at htriple
    cases htriple
  | single rest hsingle hline hbody =>
    obtain ⟨hitems, hend⟩ := itemized_of_continued hbody
    have hlines := lines_of_continuation hline hend
    have hescapes :=
      (itemized_iff_not_escapesEnd hline (splitAtCloser_of_continued hbody) hend).1 hitems
    refine ⟨by simp [hlines], ?_, ?_, ?_⟩
    · simpa [hlines] using fun _ => hend
    · simpa [hlines] using hescapes
    · simpa [hlines] using hitems
  | goesOn body line hopened hfeed hline hsplit hgoes ih =>
    obtain ⟨hne, hends, hfirst, hitems⟩ := ih
    have hend : endsInContinuation line := hgoes.resolve_left (by simp [hsingle])
    have hlines : Text.lines (body ++ line) = Text.lines body ++ [line] := by
      rw [lines_append_of_endsInFeed hfeed, lines_of_continuation hline hend]
    obtain ⟨quote, triple⟩ := d
    obtain rfl : triple = false := hsingle
    refine ⟨by simp [hlines], ?_, ?_, ?_⟩
    · rw [hlines, List.forall_mem_append]
      exact ⟨hends, by simpa using fun _ => hend⟩
    · rwa [hlines, List.head?_append_of_ne_nil _ hne]
    · rw [hlines, List.tail_append_of_ne_nil hne, List.forall_mem_append, ← hitems,
        List.forall_mem_singleton, ← itemized_iff_not_escapesEnd hline hsplit hend]
      exact ⟨fun h => h.of_append hfeed, fun h => h.1.append h.2⟩

theorem escapesEnd_lines_of_no_feed (h : '\n' ∉ text) :
    ∀ line ∈ Text.lines text, '\n' ∉ line ∧ ¬ EscapesEnd line := by
  intro line hline
  have hfeed : '\n' ∉ line := by
    intro hmem
    apply h
    rw [← Text.flatten_lines text]
    exact List.mem_flatten.2 ⟨line, hline, hmem⟩
  exact ⟨hfeed, fun hescapes => hfeed (feed_of_escapesEnd hescapes)⟩

theorem Closed.continuedLines (h : Closed d body) (hsingle : d.triple = false) :
    ∃ inner, body = inner ++ [d.quote.char] ∧ ContinuedLines d.quote inner := by
  obtain ⟨quote, triple⟩ := d
  obtain rfl : triple = false := hsingle
  have hsplit := h.split_eq
  cases h with
  | triple body htriple => cases htriple
  | single body hsingle hquotes hfeed hbody =>
    obtain ⟨inner, rfl, hreads⟩ := readsUpTo_of_splitAtCloser hsplit
    have hinner : '\n' ∉ inner := fun hmem => hfeed (List.mem_append_left _ hmem)
    have hitems := itemized_of_readsUpTo hreads hinner
    have hnone := escapesEnd_lines_of_no_feed hinner
    exact ⟨inner, rfl, fun line hline hmem => absurd hmem (hnone line hline).1,
      fun line hline => (hnone line (List.mem_of_mem_head? hline)).2,
      iff_of_true hitems fun line hline => (hnone line (List.mem_of_mem_tail hline)).2⟩
  | later opened last hopened hfeed hline hlast =>
    obtain ⟨inner, rfl, hreads⟩ := readsUpTo_of_splitAtCloser hlast
    have hinner : '\n' ∉ inner := fun hmem => hline (List.mem_append_left _ hmem)
    have hitems := itemized_of_readsUpTo hreads hinner
    have hnone := escapesEnd_lines_of_no_feed hinner
    obtain ⟨hne, hends, hfirst, hopenedItems⟩ := hopened.continuedLines rfl
    have hlines := lines_append_of_endsInFeed hfeed inner
    refine ⟨opened ++ inner, (List.append_assoc ..).symm, ?_, ?_, ?_⟩
    · rw [hlines, List.forall_mem_append]
      exact ⟨hends, fun line hline hmem => absurd hmem (hnone line hline).1⟩
    · rwa [hlines, List.head?_append_of_ne_nil _ hne]
    · rw [hlines, List.tail_append_of_ne_nil hne, List.forall_mem_append, ← hopenedItems]
      exact ⟨fun h => ⟨(h.of_append hfeed).1, fun line hline => (hnone line hline).2⟩,
        fun h => h.1.append hitems⟩

end StringLiteral

open StringLiteral

/-- A string that opens with a single quote mark closes with it, and between the quotes each line
ends in a backslash. Its line breaks are all escaped exactly if on no line behind the first one that
backslash is escaped itself. -/
theorem tokenize_single_quotes {source : Text} {tokens : List Token}
    (h : tokenize source = .ok tokens) {t : Token} (ht : t ∈ tokens) (hkind : t.kind = .string)
    {letters tail : Text} {q : Quote} (hletters : isLetters letters)
    (hvalue : t.value = letters ++ q.char :: tail) (hquotes : ¬ [q.char, q.char] <+: tail) :
    ∃ body, tail = body ++ [q.char] ∧ ContinuedLines q body := by
  obtain ⟨pieces, levels, hacc⟩ := exists_accepted h
  obtain ⟨-, -, -, -, d, letters', body', hletters', hvalue', hclosed⟩ :=
    hacc.closed_of_string ht hkind
  have hopens : Opens ⟨q, false⟩ tail := .inr hquotes
  obtain ⟨-, rfl, rfl⟩ :=
    opens_unique hletters hletters' hopens hclosed.opens (hvalue.symm.trans hvalue')
  exact hclosed.continuedLines rfl

/-- On the second line of a string the backslash in front of the line feed is escaped, and the
string goes on. -/
theorem tokenize_single_quotes_of_escaped_backslash :
    ∃ body, ['a', '\\', '\n', 'b', '\\', '\\', '\n', 'c', '"'] = body ++ ['"'] ∧
      ContinuedLines .double body := by
  let first : Text := ['"', 'a', '\\', '\n']
  let second : Text := ['b', '\\', '\\', '\n']
  let third : Text := ['c', '"', '\n']
  have htokens : tokenize (first ++ second ++ third) = .ok
      [⟨.string, first ++ second ++ ['c', '"'], ⟨1, 0⟩, ⟨3, 2⟩, some first⟩,
        ⟨.newline, ['\n'], ⟨3, 2⟩, ⟨3, 3⟩, some third⟩,
        ⟨.endMarker, [], ⟨4, 0⟩, ⟨4, 0⟩, none⟩] := by
    rfl
  exact @tokenize_single_quotes _ _ htokens _ (List.mem_cons_self ..) rfl [] _ .double rfl rfl
    (by decide)

/-- There is a string in single quotes with a line feed that no backslash escapes. -/
theorem exists_unescaped_break :
    ¬ ∀ source tokens, tokenize source = .ok tokens → ∀ t ∈ tokens, t.kind = .string →
      ∀ letters (q : Quote) tail, isLetters letters → t.value = letters ++ q.char :: tail →
        ¬ [q.char, q.char] <+: tail → ∃ body, tail = body ++ [q.char] ∧ Itemized q body := by
  intro h
  let first : Text := ['\x27', 'a', 'b', 'c', '\\', '\n']
  let second : Text := ['d', 'e', 'f', '\\', '\\', '\n']
  let third : Text := ['g', 'h', 'i', '\x27', '\n']
  obtain ⟨body, hbody, hitems⟩ := h (first ++ second ++ third)
    [⟨.string, first ++ second ++ ['g', 'h', 'i', '\x27'], ⟨1, 0⟩, ⟨3, 4⟩, some first⟩,
      ⟨.newline, ['\n'], ⟨3, 4⟩, ⟨3, 5⟩, some third⟩, ⟨.endMarker, [], ⟨4, 0⟩, ⟨4, 0⟩, none⟩]
    (by rfl) _ (List.mem_cons_self ..) rfl [] .single _ rfl rfl (by decide)
  have hinner := congrArg List.dropLast hbody
  rw [List.dropLast_concat] at hinner
  subst hinner
  change Itemized .single (first.tail ++ second ++ ['g', 'h', 'i']) at hitems
  simp [first, second, itemized_plain_iff, itemized_escape_iff] at hitems

end SourceTokens
