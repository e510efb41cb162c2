import SourceTokens.Proofs.LineEnds
import SourceTokens.Proofs.Terminators

/-!
String literals over the lines they run over. Each line of an open string is searched for the
closing quotes on its own. No closing quotes hold a line feed, and no line that ends in one leaves
an escape or a part of the quotes behind for the next, so the search that begins again with every
line finds what a search of all lines in one pass finds.
-/

namespace SourceTokens

namespace Text

def OneLine (text : Text) : Prop := '\n' ∉ text.dropLast

variable {a b text : Text}

theorem OneLine.right (h : OneLine (a ++ b)) : OneLine b := by
  intro hmem
  cases b with
  | nil => cases hmem
  | cons c rest =>
    rw [OneLine, List.dropLast_append_of_ne_nil (List.cons_ne_nil c rest)] at h
    exact h (List.mem_append_right _ hmem)

theorem OneLine.left (h : OneLine (a ++ b)) (hb : b ≠ []) : '\n' ∉ a := by
  rw [OneLine, List.dropLast_append_of_ne_nil hb] at h
  exact fun hmem => h (List.mem_append_left _ hmem)

/-- A part of a line that does not end in a line feed has none. -/
theorem OneLine.not_feed (h : OneLine (a ++ b)) (hlast : a.getLast? ≠ some '\n') : '\n' ∉ a := by
  cases b with
  | cons c rest => exact h.left (List.cons_ne_nil c rest)
  | nil =>
    rw [List.append_nil] at h
    rcases List.eq_nil_or_concat a with rfl | ⟨body, c, rfl⟩
    · exact List.not_mem_nil
    · rw [List.concat_eq_append] at h hlast ⊢
      rw [OneLine, List.dropLast_concat] at h
      rw [List.getLast?_concat] at hlast
      simp only [List.mem_append, List.mem_singleton, not_or]
      exact ⟨h, fun hc => hlast (congrArg some hc.symm)⟩

theorem oneLine_of_mem_lines {source line : Text} (h : line ∈ lines source) : OneLine line :=
  not_feed_of_mem_lines h

end Text

namespace StringLiteral

variable {d : Delimiter} {text body line : Text}

def EndsInFeed (text : Text) : Prop := ∀ c ∈ text.getLast?, c = '\n'

theorem EndsInFeed.tail {c : Char} (h : EndsInFeed (c :: text)) : EndsInFeed text := by
  cases text with
  | nil => exact fun _ hmem => by cases hmem
  | cons e more => simpa [EndsInFeed] using h

theorem EndsInFeed.right {a b : Text} (h : EndsInFeed (a ++ b)) : EndsInFeed b := by
  induction a with
  | nil => exact h
  | cons c a ih => exact ih h.tail

/-- The search goes on behind a line feed as it would begin there. -/
theorem splitAtCloser_append_of_none (h : splitAtCloser d text = none) (hfeed : EndsInFeed text)
    (behind : Text) :
    splitAtCloser d (text ++ behind) =
      (splitAtCloser d behind).map fun (body, after) => (text ++ body, after) := by
  fun_induction splitAtCloser d text with
  | case1 => simp
  | case2 c rest ih =>
    rw [Option.map_eq_none_iff] at h
    rw [List.cons_append, List.cons_append, splitAtCloser, ih h hfeed.tail.tail, Option.map_map]
    rfl
  | case3 => cases h
  | case4 c rest hc hprefix ih =>
    rw [Option.map_eq_none_iff] at h
    have hbackslash : c ≠ '\\' := by
      rintro rfl
      cases rest with
      | nil => cases hfeed _ rfl
      | cons e more => exact hc e more rfl rfl
    have hopens : ¬ d.text.isPrefixOf (c :: rest ++ behind) := by
      rw [List.isPrefixOf_iff_prefix] at hprefix ⊢
      intro hclosed
      rcases List.prefix_or_prefix_of_prefix hclosed (List.prefix_append (c :: rest) behind) with
        hshort | hlong
      · exact hprefix hshort
      · -- The closing quotes would hold the line feed.
        have hlast := List.getLast_mem (List.cons_ne_nil c rest)
        have heq := hfeed _ (List.getLast?_eq_some_getLast (List.cons_ne_nil c rest))
        rw [heq] at hlast
        exact (Quote.char_ne _).2.2 (eq_quote_of_mem_delimiter (hlong.subset hlast)).symm
    rw [List.cons_append] at hopens ⊢
    rw [splitAtCloser_cons hbackslash, if_neg hopens, ih h hfeed.tail, Option.map_map]
    rfl

theorem splitAtCloser_of_closed {q : Quote} {after : Text}
    (h : readBody q text = .closed body after) :
    splitAtCloser ⟨q, false⟩ text = some (body, after) := by
  fun_induction readBody q text generalizing body after with
  | case1 => cases h
  | case2 => cases h
  | case3 => cases h
  | case4 => cases h
  | case5 c later hcontinuation ih =>
    obtain ⟨rest, hrest, rfl⟩ := Body.cons_eq_closed h
    rw [splitAtCloser, ih hrest]
    rfl
  | case6 rest hfeed hbackslash =>
    cases h
    rw [splitAtCloser_cons q.char_ne.1, if_pos (by simp [Delimiter.text])]
    rfl
  | case7 c rest hfeed hbackslash hquote ih =>
    obtain ⟨rest', hrest, rfl⟩ := Body.cons_eq_closed h
    have hopens : ¬ (Delimiter.text ⟨q, false⟩).isPrefixOf (c :: rest) :=
      fun hprefix => hquote (quote_of_opens hprefix)
    rw [splitAtCloser_cons hbackslash, if_neg hopens, ih hrest]
    rfl

theorem ne_nil_of_continued {q : Quote} (h : readBody q text = .continued) : text ≠ [] := by
  rintro rfl
  cases h

theorem splitAtCloser_of_continued {q : Quote} (h : readBody q text = .continued) :
    splitAtCloser ⟨q, false⟩ text = none := by
  fun_induction readBody q text with
  | case1 => cases h
  | case2 => cases h
  | case3 rest hcontinuation =>
    rcases isContinuation_iff.1 hcontinuation with rfl | rfl <;> cases q <;> rfl
  | case4 => cases h
  | case5 c later hcontinuation ih =>
    rw [splitAtCloser, ih (Body.cons_eq_continued.1 h), Option.map_none]
  | case6 => cases h
  | case7 c rest hfeed hbackslash hquote ih =>
    have hopens : ¬ (Delimiter.text ⟨q, false⟩).isPrefixOf (c :: rest) :=
      fun hprefix => hquote (quote_of_opens hprefix)
    rw [splitAtCloser_cons hbackslash, if_neg hopens,
      ih (Body.cons_eq_continued.1 h), Option.map_none]

/-- What stands behind the opening quotes of a literal on the lines that leave it open. -/
inductive Opened (d : Delimiter) : Text → Prop
  /-- The line of the quotes holds no other three of them. -/
  | triple (rest : Text) (htriple : d.triple) (hsplit : splitAtCloser d rest = none) :
      Opened d rest
  /-- The line of the quote ends in a backslash that nothing escapes. -/
  | single (rest : Text) (hsingle : d.triple = false) (hline : Text.OneLine rest)
      (hbody : readBody d.quote rest = .continued) : Opened d rest
  /-- A later line does not end the literal. -/
  | goesOn (body line : Text) (hopened : Opened d body) (hfeed : EndsInFeed body)
      (hline : Text.OneLine line) (hsplit : splitAtCloser d line = none)
      (hgoes : d.triple ∨ endsInContinuation line) : Opened d (body ++ line)

inductive Closed (d : Delimiter) : Text → Prop
  | triple (body : Text) (htriple : d.triple) (hsplit : splitAtCloser d body = some (body, [])) :
      Closed d body
  | single (body : Text) (hsingle : d.triple = false)
      (hquotes : ¬ [d.quote.char, d.quote.char] <+: body) (hfeed : '\n' ∉ body)
      (hbody : readBody d.quote body = .closed body []) : Closed d body
  /-- The quotes are closed on a later line than they are opened. -/
  | later (opened last : Text) (hopened : Opened d opened) (hfeed : EndsInFeed opened)
      (hline : '\n' ∉ last) (hsplit : splitAtCloser d last = some (last, [])) :
      Closed d (opened ++ last)

theorem Opened.split_eq_none (h : Opened d body) : splitAtCloser d body = none := by
  induction h with
  | triple rest htriple hsplit => exact hsplit
  | single rest hsingle hline hbody =>
    obtain ⟨quote, triple⟩ := d
    cases hsingle
    exact splitAtCloser_of_continued hbody
  | goesOn body line hopened hfeed hline hsplit hgoes ih =>
    rw [splitAtCloser_append_of_none ih hfeed, hsplit, Option.map_none]

theorem Closed.split_eq (h : Closed d body) : splitAtCloser d body = some (body, []) := by
  cases h with
  | triple body htriple hsplit => exact hsplit
  | single body hsingle hquotes hfeed hbody =>
    obtain ⟨quote, triple⟩ := d
    cases hsingle
    exact splitAtCloser_of_closed hbody
  | later opened last hopened hfeed hline hsplit =>
    rw [splitAtCloser_append_of_none hopened.split_eq_none hfeed, hsplit, Option.map_some]

/-- What is open behind one quote does not begin with another one. -/
theorem Opened.exists_head (h : Opened d body) (hsingle : d.triple = false) :
    ∃ c rest, body = c :: rest ∧ c ≠ d.quote.char := by
  induction h with
  | triple rest htriple =>
    rw [hsingle] at htriple
    cases htriple
  | single rest hsingle hline hbody =>
    obtain ⟨c, more, rfl⟩ := List.exists_cons_of_ne_nil (ne_nil_of_continued hbody)
    refine ⟨c, more, rfl, ?_⟩
    rintro rfl
    rw [readBody_cons d.quote.char_ne.2.2 d.quote.char_ne.1, if_pos rfl] at hbody
    cases hbody
  | goesOn body line hopened hfeed hline hsplit hgoes ih =>
    obtain ⟨c, rest, rfl, hc⟩ := ih
    exact ⟨c, rest ++ line, rfl, hc⟩

/-- Two more quotes behind the opening one are not the beginning of a literal in single quotes. -/
theorem Closed.not_quotes (h : Closed d body) (hsingle : d.triple = false) :
    ¬ [d.quote.char, d.quote.char] <+: body := by
  cases h with
  | triple body htriple =>
    rw [hsingle] at htriple
    cases htriple
  | single body hsingle hquotes => exact hquotes
  | later opened last hopened =>
    obtain ⟨c, rest, rfl, hc⟩ := hopened.exists_head hsingle
    intro hprefix
    exact hc (List.cons_prefix_cons.1 hprefix).1.symm

/-- A literal, or the part of it on the lines that leave it open, by what stands behind its opening
quotes. -/
def Spelled (d : Delimiter) (behind : Text → Prop) (text : Text) : Prop :=
  ∃ letters body, isLetters letters ∧ text = letters ++ (d.text ++ body) ∧ behind body

theorem drop_quotes {q : Quote} {rest : Text} (h : [q.char, q.char].isPrefixOf rest) :
    q.char :: rest = Delimiter.text ⟨q, true⟩ ++ rest.drop 2 := by
  obtain ⟨more, rfl⟩ := List.isPrefixOf_iff_prefix.1 h
  rfl

theorem opened_of_read (h : read text = .unclosed d) (hline : Text.OneLine text) :
    Spelled d (Opened d) text := by
  unfold read at h
  split at h
  · cases h
  · rename_i letters q rest hletters
    have htext := lettersBeforeQuote_append hletters
    have hvalid := isLetters_of_lettersBeforeQuote hletters
    split at h
    · rename_i hquotes
      simp only at h
      split at h
      · cases h
      · rename_i hsplit
        cases h
        refine ⟨letters, rest.drop 2, hvalid, ?_, .triple _ rfl hsplit⟩
        rw [← htext, drop_quotes hquotes]
    · split at h
      · cases h
      · rename_i hbody
        cases h
        rw [← htext, ← List.singleton_append, ← List.append_assoc] at hline
        exact ⟨letters, rest, hvalid, htext.symm, .single rest rfl hline.right hbody⟩
      · cases h

theorem closed_of_read {literal after : Text} (h : read text = .closed literal after)
    (hline : Text.OneLine text) : ∃ d, Spelled d (Closed d) literal := by
  unfold read at h
  split at h
  · cases h
  · rename_i letters q rest hletters
    have htext := lettersBeforeQuote_append hletters
    have hvalid := isLetters_of_lettersBeforeQuote hletters
    split at h
    · simp only at h
      split at h
      · rename_i body behind hsplit
        cases h
        have hclosed := splitAtCloser_of_some hsplit []
        rw [List.append_nil] at hclosed
        exact ⟨⟨q, true⟩, letters, body, hvalid, List.append_assoc .., .triple body rfl hclosed⟩
      · cases h
    · rename_i hquotes
      split at h
      · rename_i body behind hbody
        cases h
        have hrest := readBody_append hbody
        have hclosed := readBody_of_closed hbody []
        rw [List.append_nil] at hclosed
        have hbehind : ¬ [q.char, q.char] <+: body := by
          intro hstarts
          rw [List.isPrefixOf_iff_prefix, ← hrest] at hquotes
          exact hquotes (hstarts.trans (List.prefix_append body after))
        have hfeed : '\n' ∉ body := by
          rw [← htext, ← hrest, ← List.singleton_append, ← List.append_assoc] at hline
          refine hline.right.not_feed ?_
          obtain ⟨front, rfl⟩ := exists_quote_of_readBody hbody
          rw [List.getLast?_concat]
          exact fun heq => q.char_ne.2.2 (Option.some.inj heq)
        exact ⟨⟨q, false⟩, letters, body, hvalid, rfl, .single body rfl hbehind hfeed hclosed⟩
      · cases h
      · cases h

end StringLiteral

namespace LineScan

open StringLiteral

theorem opened_of_scan {depth : Nat} {text opened : Text} {d : Delimiter}
    (hline : Text.OneLine text) (h : (scan depth text).carry = .string d opened) :
    Spelled d (Opened d) opened := by
  induction depth, text using scan_induction with
  | nil => cases h
  | piece depth c rest piece after htaken hcover ih =>
    rw [← hcover] at hline
    exact ih hline.right h
  | continuation => cases h
  | unclosed depth c rest d' hfront =>
    cases h
    exact opened_of_read (front_eq_unclosed_iff.1 hfront).2.2 hline

theorem closed_of_scan {depth : Nat} {text literal : Text} (hline : Text.OneLine text)
    (h : .lexeme .string literal ∈ (scan depth text).pieces) :
    ∃ d, Spelled d (Closed d) literal := by
  induction depth, text using scan_induction with
  | nil => cases h
  | piece depth c rest piece after htaken hcover ih =>
    rcases List.mem_cons.1 h with rfl | h
    · exact closed_of_read htaken.takenAs hline
    · rw [← hcover] at hline
      exact ih hline.right h
  | continuation => simp at h
  | unclosed => cases h

end LineScan

namespace Segmentation

open Indentation LineScan StringLiteral

def StringsOpened (s : State) : Prop :=
  ∀ d text, s.carry = .string d text →
    Spelled d (fun body => Opened d body ∧ EndsInFeed body) text

variable {s next last : State} {line text : Text} {pieces : List Piece} {d : Delimiter}

theorem stringsOpened_start : StringsOpened {} := fun d text hcarry => by cases hcarry

theorem opened_of_lineCut (hs : StringsOpened s) (hline : Text.OneLine line)
    (h : LineCut s line pieces next) (hcarry : next.carry = .string d text) :
    Spelled d (Opened d) text := by
  cases h with
  | closes d' text' body rest hopen hsplit =>
    rw [← splitAtCloser_append hsplit] at hline
    exact opened_of_scan hline.right hcarry
  | givesUp => cases hcarry
  | staysOpen d' text' hopen hsplit hgoes =>
    cases hcarry
    obtain ⟨letters, body, hletters, rfl, hopened, hfeed⟩ := hs d text' hopen
    exact ⟨letters, body ++ line, hletters, by simp only [List.append_assoc],
      .goesOn body line hopened hfeed hline hsplit hgoes⟩
  | noCode pieces hnothing =>
    rw [hnothing] at hcarry
    cases hcarry
  | code before levels rest hnothing hdepth hstart =>
    rw [← cover_of_code hstart] at hline
    exact opened_of_scan hline.right hcarry
  | within => exact opened_of_scan hline hcarry

/-- Every string of a line is closed by its own quotes. -/
theorem closed_of_lineCut (hs : StringsOpened s) (hline : Text.OneLine line)
    (h : LineCut s line pieces next) (hmem : .lexeme .string text ∈ pieces) :
    ∃ d, Spelled d (Closed d) text := by
  cases h with
  | closes d text' body rest hopen hsplit =>
    rw [← splitAtCloser_append hsplit] at hline
    rcases List.mem_cons.1 hmem with heq | hmem
    · cases heq
      obtain ⟨letters, opened, hletters, rfl, hopened, hfeed⟩ := hs d text' hopen
      have hclosed := splitAtCloser_of_some hsplit []
      rw [List.append_nil] at hclosed
      have hbody : '\n' ∉ body := by
        refine hline.not_feed ?_
        obtain ⟨front, rfl⟩ := exists_closer_of_split hsplit
        obtain ⟨quotes, hquotes⟩ := exists_quote_of_delimiter d
        rw [hquotes, ← List.append_assoc, List.getLast?_concat]
        exact fun heq => d.quote.char_ne.2.2 (Option.some.inj heq)
      exact ⟨d, letters, opened ++ body, hletters, by simp only [List.append_assoc],
        .later opened body hopened hfeed hbody hclosed⟩
    · exact closed_of_scan hline.right hmem
  | givesUp => simp at hmem
  | staysOpen => cases hmem
  | noCode pieces hnothing hdepth hstart => cases hstart <;> simp at hmem
  | code before levels rest hnothing hdepth hstart =>
    rw [← cover_of_code hstart] at hline
    rcases List.mem_append.1 hmem with hbefore | hscan
    · cases hstart <;> simp at hbefore
    · exact closed_of_scan hline.right hscan
  | within => exact closed_of_scan hline hmem

/-- Whole lines leave a string open behind a line feed. -/
theorem stringsOpened_of_cutLine (hs : StringsOpened s)
    (hline : ∃ body, line = body ++ ['\n'] ∧ '\n' ∉ body)
    (h : cutLine s line = .ok (pieces, next)) : StringsOpened next := by
  intro d text hcarry
  obtain ⟨front, rfl, hfront⟩ := hline
  have hone : Text.OneLine (front ++ ['\n']) := by rwa [Text.OneLine, List.dropLast_concat]
  obtain ⟨letters, body, hletters, rfl, hopened⟩ :=
    opened_of_lineCut hs hone (lineCut_of_cutLine h) hcarry
  have hfeed : EndsInFeed (Piece.cover pieces ++ next.carry.text) := by
    rw [cutLine_cover h, ← List.append_assoc]
    simp [EndsInFeed]
  rw [hcarry] at hfeed
  exact ⟨letters, body, hletters, rfl, hopened, hfeed.right.right.right⟩

theorem stringsOpened_of_cutLines {lines : List Text} (hs : StringsOpened s)
    (hlines : ∀ line ∈ lines, ∃ body, line = body ++ ['\n'] ∧ '\n' ∉ body)
    (h : cutLines s lines = .ok (pieces, last)) : StringsOpened last := by
  induction lines generalizing s pieces with
  | nil =>
    cases h
    exact hs
  | cons line later ih =>
    obtain ⟨hline, hlater⟩ := List.forall_mem_cons.1 hlines
    obtain ⟨first, next, more, -, hfirst, hmore⟩ := exists_cutLine_of_cutLines h
    exact ih (stringsOpened_of_cutLine hs hline hfirst) hlater hmore

/-- A string that is open at the end of a source has no closing quotes. -/
theorem opened_of_cutLines {source : Text} (h : cutLines {} (Text.lines source) = .ok (pieces, s))
    (hcarry : s.carry = .string d text) : Spelled d (Opened d) text := by
  rcases List.eq_nil_or_concat (Text.lines source) with hnone | ⟨above, line, hlines⟩
  · rw [hnone] at h
    cases h
    cases hcarry
  · rw [List.concat_eq_append] at hlines
    have hone := Text.oneLine_of_mem_lines (show line ∈ Text.lines source by simp [hlines])
    have hwhole : ∀ whole ∈ above, ∃ body, whole = body ++ ['\n'] ∧ '\n' ∉ body :=
      (Text.whole_of_lines hlines).1
    rw [hlines] at h
    obtain ⟨front, middle, back, -, habove, hback⟩ := exists_cutLines_of_append h
    exact opened_of_lineCut (stringsOpened_of_cutLines stringsOpened_start hwhole habove) hone
      (lineCut_of_singleton hback) hcarry

end Segmentation

theorem Accepted.closed_of_lexeme {source : Text} {tokens : List Token} {pieces : List Piece}
    {levels : List Nat} (h : Accepted source tokens pieces levels) {before after : List Piece}
    {text : Text} (hpieces : pieces = before ++ .lexeme .string text :: after) :
    ∃ d, StringLiteral.Spelled d (StringLiteral.Closed d) text := by
  have hcut := h.cut
  rw [hpieces] at hcut
  obtain ⟨above, line, below, front, middle, head, tail, next, hlines, habove, hline, -⟩ :=
    Segmentation.exists_lineCut_of_piece hcut
  have hone := Text.oneLine_of_mem_lines (show line ∈ Text.lines source by simp [hlines])
  have hs := Segmentation.stringsOpened_of_cutLines Segmentation.stringsOpened_start
    (Text.whole_of_lines hlines).1 habove
  exact Segmentation.closed_of_lineCut hs hone hline (by simp)

end SourceTokens
