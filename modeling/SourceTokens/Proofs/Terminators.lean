import SourceTokens.Proofs.FreshLines
import SourceTokens.Proofs.LineTails
import SourceTokens.Proofs.NoiseLines

/-!
Sources that differ in their line terminators only. A source without carriage returns is cut alike
when one comes in front of every line feed: line by line the pieces and the state are the same up to
that, and places do not move, because a line feed starts a line whatever column it stands in.
-/

namespace SourceTokens

namespace Text

/-- The text with a carriage return in front of every line feed. -/
def crlf (text : Text) : Text := text.flatMap fun c => if c = '\n' then ['\r', '\n'] else [c]

variable {text : Text}

theorem crlf_append (a b : Text) : crlf (a ++ b) = crlf a ++ crlf b := List.flatMap_append

theorem crlf_feed (rest : Text) : crlf ('\n' :: rest) = '\r' :: '\n' :: crlf rest := rfl

theorem crlf_cons {c : Char} (rest : Text) (hc : c ≠ '\n') : crlf (c :: rest) = c :: crlf rest := by
  rw [crlf, List.flatMap_cons, if_neg hc]
  rfl

theorem crlf_of_no_feed (h : '\n' ∉ text) : crlf text = text := by
  induction text with
  | nil => rfl
  | cons c rest ih =>
    rw [List.mem_cons, not_or] at h
    rw [crlf_cons rest (Ne.symm h.1), ih h.2]

/-- Lines stay lines. -/
theorem lines_crlf (source : Text) : lines (crlf source) = (lines source).map crlf := by
  induction source with
  | nil => rfl
  | cons c rest ih =>
    by_cases hc : c = '\n'
    · subst hc
      rw [crlf_feed, lines, if_neg (by decide), lines, if_pos rfl, ih, lines, if_pos rfl]
      rfl
    · rw [crlf_cons rest hc, lines, if_neg hc, ih, lines, if_neg hc]
      cases lines rest with
      | nil =>
        rw [List.map_nil]
        simp only [List.map_cons, List.map_nil, crlf_cons [] hc]
        rfl
      | cons line later => simp only [List.map_cons, crlf_cons line hc]

structure Clean (line : Text) : Prop where
  no_return : '\r' ∉ line
  no_feed : '\n' ∉ line.dropLast

theorem clean_of_mem_lines {source line : Text} (h : '\r' ∉ source) (hline : line ∈ lines source) :
    Clean line := by
  have hreturn : '\r' ∉ line := by
    intro hmem
    apply h
    rw [← flatten_lines source]
    exact List.mem_flatten.2 ⟨line, hline, hmem⟩
  refine ⟨hreturn, ?_⟩
  obtain ⟨full, tail, hlines, hfull, htail⟩ := exists_lines source
  rw [hlines] at hline
  rcases List.mem_append.1 hline with hmem | hmem
  · obtain ⟨body, rfl, hbody⟩ := hfull line hmem
    rwa [List.dropLast_concat]
  · rcases htail with rfl | ⟨last, rfl, -, hlast⟩
    · cases hmem
    · rw [List.mem_singleton.1 hmem]
      exact fun hfeed => hlast (List.dropLast_subset _ hfeed)

namespace Clean

/-- A clean line has no line feed, or it ends in its only one. -/
theorem cases_feed (h : Clean text) :
    '\n' ∉ text ∨ ∃ body, text = body ++ ['\n'] ∧ '\n' ∉ body ∧ '\r' ∉ body := by
  rcases List.eq_nil_or_concat text with rfl | ⟨body, c, rfl⟩
  · exact Or.inl (List.not_mem_nil)
  · rw [List.concat_eq_append] at h ⊢
    have hbody := h.no_feed
    rw [List.dropLast_concat] at hbody
    by_cases hc : c = '\n'
    · subst hc
      refine Or.inr ⟨body, rfl, hbody, ?_⟩
      exact fun hmem => h.no_return (List.mem_append_left _ hmem)
    · refine Or.inl (List.not_mem_append hbody ?_)
      rw [List.mem_singleton]
      exact Ne.symm hc

theorem of_append {front : Text} (h : Clean (front ++ text)) : Clean text := by
  refine ⟨fun hmem => h.no_return (List.mem_append_right _ hmem), ?_⟩
  cases text with
  | nil => exact List.not_mem_nil
  | cons c rest =>
    intro hmem
    apply h.no_feed
    rw [List.dropLast_append_of_ne_nil (List.cons_ne_nil c rest)]
    exact List.mem_append_right _ hmem

theorem nil_of_feed {rest : Text} (h : Clean ('\n' :: rest)) : rest = [] := by
  by_contra hne
  apply h.no_feed
  rw [List.dropLast_cons_of_ne_nil hne]
  exact List.mem_cons_self ..

end Clean

theorem crlf_concat {body : Text} (h : '\n' ∉ body) :
    crlf (body ++ ['\n']) = body ++ ['\r', '\n'] := by
  rw [crlf_append, crlf_of_no_feed h]
  rfl

theorem getLast?_crlf (text : Text) : (crlf text).getLast? = text.getLast? := by
  rcases List.eq_nil_or_concat text with rfl | ⟨body, c, rfl⟩
  · rfl
  · rw [List.concat_eq_append, crlf_append, List.getLast?_concat]
    by_cases hc : c = '\n'
    · subst hc
      exact List.getLast?_append_of_ne_nil _ (List.cons_ne_nil _ _)
    · rw [crlf_cons [] hc]
      exact List.getLast?_concat

end Text

namespace Position

/-- The place behind a text does not depend on its line terminators. -/
theorem past_crlf (p : Position) (text : Text) : p.past (Text.crlf text) = p.past text := by
  induction text generalizing p with
  | nil => rfl
  | cons c rest ih =>
    by_cases hc : c = '\n'
    · subst hc
      rw [Text.crlf_feed, past_cons, past_cons, past_cons, ih]
      rfl
    · rw [Text.crlf_cons rest hc, past_cons, past_cons, ih]

/-- A text that ends in a line terminator stops one column later. -/
theorem stop_crlf (p : Position) (text : Text) :
    p.stop (Text.crlf text) =
      if text.getLast? = some '\n' then ⟨(p.stop text).line, (p.stop text).col + 1⟩
      else p.stop text := by
  rcases List.eq_nil_or_concat text with rfl | ⟨body, c, rfl⟩
  · rfl
  · rw [List.concat_eq_append, List.getLast?_concat, Text.crlf_append, stop_concat]
    by_cases hc : c = '\n'
    · subst hc
      have hfeed : Text.crlf body ++ Text.crlf ['\n'] = Text.crlf body ++ ['\r'] ++ ['\n'] := by
        rw [List.append_assoc]
        rfl
      rw [if_pos rfl, hfeed, stop_concat, past_append, past_crlf]
      rfl
    · rw [if_neg (by simpa using hc), Text.crlf_cons [] hc]
      change p.stop (Text.crlf body ++ [c]) = _
      rw [stop_concat, past_crlf]

end Position

namespace StringLiteral

open Text

/-- Closing quotes that a line does not hold it does not hold with another terminator either. -/
theorem splitAtCloser_feed_of_none {d : Delimiter} {text : Text}
    (h : splitAtCloser d (text ++ ['\n']) = none) :
    splitAtCloser d (text ++ ['\r', '\n']) = none := by
  have hquote : ∀ c ∈ ['\\', '\r', '\n'], c ∉ d.text ∧ c ≠ d.quote.char := by
    intro c hc
    simp only [List.mem_cons, List.not_mem_nil, or_false] at hc
    obtain ⟨quote, triple⟩ := d
    rcases hc with rfl | rfl | rfl <;> cases quote <;> cases triple <;> decide
  fun_induction splitAtCloser d text with
  | case1 => obtain ⟨quote, triple⟩ := d; cases quote <;> cases triple <;> rfl
  | case2 c rest ih =>
    rw [List.cons_append, List.cons_append, splitAtCloser, Option.map_eq_none_iff] at h ⊢
    exact ih h
  | case3 c rest hc hprefix =>
    have hbackslash : c ≠ '\\' := by
      rw [quote_of_opens hprefix]
      exact Ne.symm (hquote '\\' (by decide)).2
    have hopens : d.text.isPrefixOf (c :: (rest ++ ['\n'])) :=
      List.isPrefixOf_iff_prefix.2
        ((List.isPrefixOf_iff_prefix.1 hprefix).trans (List.prefix_append (c :: rest) ['\n']))
    rw [List.cons_append, splitAtCloser_cons hbackslash, if_pos hopens] at h
    cases h
  | case4 c rest hc hprefix ih =>
    by_cases hbackslash : c = '\\'
    · subst hbackslash
      cases rest with
      | cons e rest => exact absurd rfl (hc e rest rfl)
      | nil => obtain ⟨quote, triple⟩ := d; cases quote <;> cases triple <;> rfl
    · have hopens : ∀ behind, (∀ c ∈ behind.head?, c ∈ ['\\', '\r', '\n']) →
          ¬ d.text.isPrefixOf (c :: (rest ++ behind)) := by
        intro behind hbehind
        rw [← List.cons_append,
          Text.isPrefixOf_append fun e he => (hquote e (hbehind e he)).1]
        exact hprefix
      rw [List.cons_append, splitAtCloser_cons hbackslash, if_neg,
        Option.map_eq_none_iff] at h ⊢
      · exact ih h
      · exact hopens _ (by simp)
      · exact hopens _ (by simp)

/-- The closing quotes of an open string are found on a line in front of its terminator. -/
theorem splitAtCloser_crlf {d : Delimiter} {line : Text} (hline : Clean line) :
    splitAtCloser d line.crlf = (splitAtCloser d line).map fun r => (r.1.crlf, r.2.crlf) := by
  rcases hline.cases_feed with hnone | ⟨body, rfl, hfeed, -⟩
  · rw [crlf_of_no_feed hnone]
    cases hsplit : splitAtCloser d line with
    | none => rfl
    | some r =>
      rw [← splitAtCloser_append hsplit, List.mem_append, not_or] at hnone
      rw [Option.map_some, crlf_of_no_feed hnone.1, crlf_of_no_feed hnone.2]
  · rw [crlf_concat hfeed]
    cases hsplit : splitAtCloser d (body ++ ['\n']) with
    | none => exact splitAtCloser_feed_of_none hsplit
    | some r =>
      obtain ⟨closed, rest⟩ := r
      have hline := splitAtCloser_append hsplit
      rcases List.eq_nil_or_concat rest with rfl | ⟨after, c, rfl⟩
      · -- The closing quotes would end in the line feed.
        exfalso
        obtain ⟨front, rfl⟩ := exists_closer_of_split hsplit
        obtain ⟨quotes, hquotes⟩ := exists_quote_of_delimiter d
        rw [hquotes, List.append_nil, ← List.append_assoc] at hline
        have hquote := (List.append_inj' hline rfl).2
        exact d.quote.char_ne.2.2 (List.cons.inj hquote).1
      · rw [List.concat_eq_append, ← List.append_assoc] at hline
        obtain ⟨hbody, hc⟩ := List.append_inj' hline rfl
        obtain ⟨rfl, -⟩ := List.cons.inj hc
        rw [← hbody, List.mem_append, not_or] at hfeed
        rw [← hbody, List.append_assoc, splitAtCloser_of_some hsplit, Option.map_some,
          List.concat_eq_append, crlf_of_no_feed hfeed.1, crlf_concat hfeed.2]

theorem readBody_feed_of_continued {q : Quote} {text : Text} (hfeed : '\n' ∉ text)
    (hreturn : '\r' ∉ text) (h : readBody q (text ++ ['\n']) = .continued) :
    readBody q (text ++ ['\r', '\n']) = .continued := by
  fun_induction readBody q text with
  | case1 => cases h
  | case2 => exact absurd (List.mem_cons_self ..) hfeed
  | case3 rest hcontinuation =>
    rw [isContinuation_iff] at hcontinuation
    rcases hcontinuation with rfl | rfl <;> simp at hfeed
  | case4 => rfl
  | case5 c later hopen ih =>
    simp only [List.mem_cons, not_or] at hfeed hreturn
    obtain ⟨-, hcFeed, hlaterFeed⟩ := hfeed
    obtain ⟨-, hcReturn, hlaterReturn⟩ := hreturn
    have hgoes : isContinuation ('\\' :: c :: (later ++ ['\n'])) = false := by
      rw [Bool.eq_false_iff, Ne, isContinuation_iff]
      rintro (hrest | hrest)
      · exact hcFeed (List.cons.inj hrest).1.symm
      · exact hcReturn (List.cons.inj hrest).1.symm
    rw [List.cons_append, List.cons_append, readBody] at h ⊢
    rw [hgoes, if_neg Bool.false_ne_true, Body.cons_eq_continued] at h
    rw [Tail.feed.not_continuation (Ne.symm hcFeed) hlaterFeed, if_neg Bool.false_ne_true,
      Body.cons_eq_continued]
    exact ih hlaterFeed hlaterReturn h
  | case6 rest hquoteFeed hquoteBackslash =>
    rw [List.cons_append, readBody_cons hquoteFeed hquoteBackslash, if_pos rfl] at h
    cases h
  | case7 c rest hother hbackslash hquote ih =>
    rw [List.cons_append, readBody_cons hother hbackslash, if_neg hquote,
      Body.cons_eq_continued] at h ⊢
    exact ih (fun hmem => hfeed (List.mem_cons_of_mem _ hmem))
      (fun hmem => hreturn (List.mem_cons_of_mem _ hmem)) h

/-- A literal that its line leaves open is left open with another terminator too. -/
theorem read_feed_of_unclosed {d : Delimiter} {text : Text} (hfeed : '\n' ∉ text)
    (hreturn : '\r' ∉ text) (h : StringLiteral.read (text ++ ['\n']) = .unclosed d) :
    StringLiteral.read (text ++ ['\r', '\n']) = .unclosed d := by
  unfold StringLiteral.read at h ⊢
  rw [lettersBeforeQuote_append_neutral text Tail.feed.neutral_left] at h
  rw [lettersBeforeQuote_append_neutral text Tail.feed.neutral_right]
  cases hletters : lettersBeforeQuote text with
  | none =>
    rw [hletters] at h
    cases h
  | some r =>
    obtain ⟨letters, q, rest⟩ := r
    rw [hletters] at h
    have hsub : ∀ c, c ∈ rest → c ∈ text := by
      intro c hc
      rw [← lettersBeforeQuote_append hletters]
      exact List.mem_append_right _ (List.mem_cons_of_mem _ hc)
    simp only [Option.map_some] at h ⊢
    rw [isPrefixOf_quotes rest Tail.feed.neutral_left] at h
    rw [isPrefixOf_quotes rest Tail.feed.neutral_right]
    split at h
    · rename_i htriple
      have hlength : 2 ≤ rest.length := (List.isPrefixOf_iff_prefix.1 htriple).length_le
      rw [List.drop_append_of_le_length hlength] at h ⊢
      rw [if_pos htriple]
      split at h
      · cases h
      · rename_i hsplit
        rw [splitAtCloser_feed_of_none hsplit]
        exact h
    · rename_i htriple
      rw [if_neg htriple]
      split at h
      · cases h
      · rename_i hbody
        rw [readBody_feed_of_continued (fun hc => hfeed (hsub _ hc)) (fun hc => hreturn (hsub _ hc))
          hbody]
        exact h
      · cases h

theorem endsInContinuation_crlf {line : Text} (hline : Clean line) :
    endsInContinuation line.crlf = endsInContinuation line := by
  rcases hline.cases_feed with hnone | ⟨body, rfl, hfeed, hreturn⟩
  · rw [crlf_of_no_feed hnone]
  · rw [crlf_concat hfeed]
    rcases List.eq_nil_or_concat body with rfl | ⟨front, c, rfl⟩
    · rfl
    · have hc : ¬ '\r' = c := by
        rintro rfl
        exact hreturn (by simp)
      simp [endsInContinuation, List.isSuffixOf, List.isPrefixOf, hc]

end StringLiteral

def Piece.crlf : Piece → Piece
  | .gap text => .gap text.crlf
  | .lexeme kind text => .lexeme kind text.crlf

namespace Piece

theorem text_crlf (piece : Piece) : piece.crlf.text = piece.text.crlf := by
  cases piece <;> rfl

theorem cover_crlf (pieces : List Piece) : cover (pieces.map crlf) = (cover pieces).crlf := by
  induction pieces with
  | nil => rfl
  | cons piece rest ih =>
    rw [List.map_cons, cover_cons, cover_cons, Text.crlf_append, ih, text_crlf]

theorem crlf_of_no_feed {piece : Piece} (h : '\n' ∉ piece.text) : piece.crlf = piece := by
  cases piece with
  | gap text => exact congrArg Piece.gap (Text.crlf_of_no_feed h)
  | lexeme kind text => exact congrArg (Piece.lexeme kind) (Text.crlf_of_no_feed h)

end Piece

namespace LineScan

open StringLiteral

def Carry.crlf : Carry → Carry
  | .string d text => .string d text.crlf
  | other => other

theorem Carry.text_crlf (carry : Carry) : carry.crlf.text = carry.text.crlf := by
  cases carry <;> rfl

def Result.crlf (r : Result) : Result := ⟨r.pieces.map Piece.crlf, r.depth, r.carry.crlf⟩

theorem frontOfWord_ne_unclosed (c : Char) (rest : Text) (d : Delimiter) :
    frontOfWord c rest ≠ .unclosed d := by
  unfold frontOfWord frontOfSymbol Front.ofRun
  split
  · exact fun h => by cases h
  · split
    · exact fun h => by cases h
    · split <;> exact fun h => by cases h

/-- A string is left open where a literal starts that the line does not close. -/
theorem front_eq_unclosed_iff {depth : Nat} {c : Char} {rest : Text} {d : Delimiter} :
    front depth c rest = .unclosed d ↔
      Plain c rest ∧ Number.length (c :: rest) = 0 ∧
        StringLiteral.read (c :: rest) = .unclosed d := by
  constructor
  · intro h
    unfold front at h
    split at h
    · cases h
    · rename_i hblank
      split at h
      · split at h <;> cases h
      · rename_i hbackslash
        split at h
        · cases h
        · rename_i hfeed
          split at h
          · cases h
          · rename_i hreturn
            split at h
            · cases h
            · rename_i hcomment
              rw [Bool.not_eq_true] at hblank
              refine ⟨⟨hblank, hbackslash, hfeed, hreturn, hcomment⟩, ?_⟩
              unfold frontOfLiteral at h
              simp only at h
              split at h
              · rename_i hnumber
                split at h
                · cases h
                · rename_i hread
                  cases h
                  exact ⟨hnumber, hread⟩
                · exact absurd h (frontOfWord_ne_unclosed c rest d)
              · cases h
  · rintro ⟨hplain, hnumber, hread⟩
    rw [front_of_plain depth hplain]
    simp only [frontOfLiteral, hnumber, hread]

/-- Behind a character that is no break, a piece does not end in a line feed. -/
theorem getLast?_ne_feed_of_taken {depth : Nat} {c : Char} {rest after : Text} {piece : Piece}
    (h : Taken depth c rest piece after) (hc : Text.isBreak c = false) :
    piece.text.getLast? ≠ some '\n' := by
  have hall : ∀ {p : Char → Bool} {text : Text}, (∀ c ∈ text, p c) → p '\n' = false →
      text.getLast? ≠ some '\n' := by
    intro p text htext hp hlast
    have hfeed := htext '\n' (List.mem_of_getLast? hlast)
    rw [hp] at hfeed
    cases hfeed
  have hsingle : [c].getLast? ≠ some '\n' := by
    rintro ⟨⟩
    cases hc
  cases h with
  | blanks => exact hall (fun _ => List.mem_takeWhile_imp) rfl
  | backslash => exact hsingle
  | feed => exact hsingle
  | returnFeed after hreturn =>
    rw [hreturn] at hc
    cases hc
  | comment => exact hall (fun _ => List.mem_takeWhile_imp) rfl
  | number hplain length hlength =>
    have hwithin := Number.length_within (c :: rest)
    rw [hlength] at hwithin
    exact hall hwithin rfl
  | string hplain hnumber literal after hread =>
    obtain ⟨front, quote, rfl⟩ := exists_quote_of_read hread
    rw [Piece.text, List.getLast?_concat]
    cases quote <;> decide
  | name => exact hall (fun _ => List.mem_takeWhile_imp) rfl
  | numeral => exact hall (fun _ => List.mem_takeWhile_imp) rfl
  | operator hplain hnumber hread hcontinue operator hlongest =>
    have htable : ∀ entry ∈ Operator.table, entry.getLast? ≠ some '\n' := by decide
    exact htable operator (List.mem_of_find?_eq_some hlongest)
  | stray => exact hsingle

def Front.crlf : Front → Front
  | .piece first after => .piece first after.crlf
  | .continuation => .continuation
  | .unclosed d => .unclosed d

/-- A piece at the front of a clean text, in front of its terminator. -/
theorem no_feed_of_taken {depth : Nat} {c : Char} {rest after : Text} {piece : Piece}
    (hclean : Text.Clean (c :: rest)) (hc : c ≠ '\n') (h : Taken depth c rest piece after) :
    '\n' ∉ piece.text := by
  have hbreak : Text.isBreak c = false := by
    have hreturn : c ≠ '\r' := by
      rintro rfl
      exact hclean.no_return (List.mem_cons_self ..)
    simp [Text.isBreak, hreturn, hc]
  have hlast := getLast?_ne_feed_of_taken h hbreak
  have hcover := front_covers depth c rest
  rw [front_of_taken h] at hcover
  have happend := hcover.1
  intro hmem
  obtain ⟨before, behind, hpiece⟩ := List.append_of_mem hmem
  rcases List.eq_nil_or_concat behind with rfl | ⟨middle, d, rfl⟩
  · rw [hpiece, List.getLast?_concat] at hlast
    exact hlast rfl
  · apply hclean.no_feed
    have hline : c :: rest = (before ++ '\n' :: middle) ++ d :: after := by
      rw [← happend, hpiece, List.concat_eq_append]
      simp only [List.append_assoc, List.cons_append, List.nil_append]
    rw [hline, List.dropLast_append_of_ne_nil (List.cons_ne_nil d after)]
    exact List.mem_append_left _ (List.mem_append_right _ (List.mem_cons_self ..))

/-- Without a carriage return the only continuation in front of a line feed is a backslash. -/
theorem backslash_of_continuation {depth : Nat} {c : Char} {text : Text}
    (h : front depth c (text ++ ['\n']) = .continuation) (hreturn : '\r' ∉ text) :
    c = '\\' ∧ text = [] := by
  have hmark : isContinuation (c :: (text ++ ['\n'])) := by
    have hshape := front_wellShaped depth c (text ++ ['\n'])
    rwa [h] at hshape
  simp only [isContinuation, Bool.or_eq_true, beq_iff_eq, List.cons.injEq] at hmark
  rcases hmark with ⟨hbackslash, hmark⟩ | ⟨-, hmark⟩
  · exact ⟨hbackslash, List.append_cancel_right hmark⟩
  · cases text with
    | nil => cases hmark
    | cons d text =>
      obtain ⟨rfl, -⟩ := List.cons.inj hmark
      exact absurd (List.mem_cons_self ..) hreturn

/-- A piece in front of a line feed leaves that line feed, and the same piece is cut in front of a
carriage return. -/
theorem front_of_piece_crlf {depth : Nat} {c : Char} {text after : Text} {piece : Piece}
    (h : Text.Clean (c :: (text ++ ['\n']))) (hfeed : '\n' ∉ c :: text)
    (hfront : front depth c (text ++ ['\n']) = .piece piece after) :
    front depth c (text ++ ['\r', '\n']) = .piece piece after.crlf := by
  have htaken := taken_of_front hfront
  have hcover := front_covers depth c (text ++ ['\n'])
  rw [hfront] at hcover
  have happend := hcover.1
  rcases List.eq_nil_or_concat after with rfl | ⟨after, d, rfl⟩
  · have hc : c ≠ '\n' := fun heq => hfeed (heq ▸ List.mem_cons_self ..)
    have hpiece := no_feed_of_taken h hc htaken
    rw [List.append_nil] at happend
    rw [happend] at hpiece
    simp at hpiece
  · rw [List.concat_eq_append, ← List.append_assoc, ← List.cons_append] at happend
    obtain ⟨hpiece, hd⟩ := List.append_inj' happend rfl
    obtain ⟨rfl, -⟩ := List.cons.inj hd
    have hafter : '\n' ∉ after := by
      rw [← hpiece] at hfeed
      exact fun hmem => hfeed (List.mem_append_right _ hmem)
    rw [List.concat_eq_append] at htaken ⊢
    rw [front_of_taken (htaken.of_tail .feed hfeed), Text.crlf_concat hafter]

/-- What stands at the front of a clean text does not depend on its terminator. -/
theorem front_crlf {depth : Nat} {c : Char} {rest : Text} (h : Text.Clean (c :: rest))
    (hc : c ≠ '\n') : front depth c rest.crlf = (front depth c rest).crlf := by
  have hrest : Text.Clean rest := Text.Clean.of_append (show Text.Clean ([c] ++ rest) from h)
  rcases hrest.cases_feed with hnone | ⟨text, rfl, hfeed, hreturn⟩
  · rw [Text.crlf_of_no_feed hnone]
    cases hfront : front depth c rest with
    | continuation => rfl
    | unclosed d => rfl
    | piece first after =>
      have hcover := front_covers depth c rest
      rw [hfront] at hcover
      have hafter : '\n' ∉ after := by
        intro hmem
        have hline := List.mem_append_right first.text hmem
        rw [hcover.1] at hline
        rcases List.mem_cons.1 hline with heq | hmem
        · exact hc heq.symm
        · exact hnone hmem
      rw [Front.crlf, Text.crlf_of_no_feed hafter]
  · have htext : '\n' ∉ c :: text := by
      rw [List.mem_cons, not_or]
      exact ⟨Ne.symm hc, hfeed⟩
    rw [Text.crlf_concat hfeed]
    cases hfront : front depth c (text ++ ['\n']) with
    | continuation =>
      obtain ⟨rfl, rfl⟩ := backslash_of_continuation hfront hreturn
      rfl
    | unclosed d =>
      obtain ⟨hplain, hnumber, hread⟩ := front_eq_unclosed_iff.1 hfront
      rw [← List.cons_append] at hnumber hread
      have hno : '\r' ∉ c :: text := by
        rw [List.mem_cons, not_or]
        refine ⟨?_, hreturn⟩
        rintro rfl
        exact h.no_return (List.mem_cons_self ..)
      exact front_eq_unclosed_iff.2 ⟨hplain.of_tail .feed hfeed, length_of_tail .feed hnumber,
        read_feed_of_unclosed htext hno hread⟩
    | piece first after => exact front_of_piece_crlf h htext hfront

theorem scan_of_continuation {depth : Nat} {c : Char} {rest : Text}
    (h : front depth c rest = .continuation) :
    scan depth (c :: rest) = ⟨[.gap (c :: rest)], depth, .continuation⟩ := by
  rw [scan, List.length_cons, scanUpTo, h]

theorem scan_of_unclosed {depth : Nat} {c : Char} {rest : Text} {d : Delimiter}
    (h : front depth c rest = .unclosed d) :
    scan depth (c :: rest) = ⟨[], depth, .string d (c :: rest)⟩ := by
  rw [scan, List.length_cons, scanUpTo, h]

theorem depthAfter_lineBreak (depth : Nat) (text : Text) :
    depthAfter depth (.lexeme (lineBreakKind depth) text) = depth := by
  unfold lineBreakKind
  split <;> rfl

/-- The rest of a clean line is cut alike with another terminator. -/
theorem scan_crlf {depth : Nat} {text : Text} (h : Text.Clean text) :
    scan depth text.crlf = (scan depth text).crlf := by
  induction hn : text.length using Nat.strong_induction_on generalizing depth text with
  | h n ih =>
    cases text with
    | nil => rfl
    | cons c rest =>
      by_cases hc : c = '\n'
      · subst hc
        obtain rfl := h.nil_of_feed
        have hold : Taken depth '\n' [] _ _ := .feed rfl
        have hnew : Taken depth '\r' ['\n'] _ _ := .returnFeed [] rfl rfl
        change scan depth ['\r', '\n'] = _
        rw [scan_of_piece (front_of_taken hold), scan_of_piece (front_of_taken hnew),
          depthAfter_lineBreak, depthAfter_lineBreak]
        rfl
      · rw [Text.crlf_cons rest hc]
        have hfront : front depth c (Text.crlf rest) = (front depth c rest).crlf :=
          front_crlf h hc
        cases hold : front depth c rest with
        | continuation =>
          rw [hold] at hfront
          rw [scan_of_continuation hold, scan_of_continuation hfront, ← Text.crlf_cons rest hc]
          rfl
        | unclosed d =>
          rw [hold] at hfront
          rw [scan_of_unclosed hold, scan_of_unclosed hfront, ← Text.crlf_cons rest hc]
          rfl
        | piece first after =>
          rw [hold] at hfront
          have hcover := front_covers depth c rest
          rw [hold] at hcover
          have hlength := congrArg List.length hcover.1
          have hpos := List.length_pos_iff.2 hcover.2
          rw [List.length_append] at hlength
          have hclean := h
          rw [← hcover.1] at hclean
          rw [scan_of_piece hold, scan_of_piece hfront,
            ih after.length (by omega) hclean.of_append rfl]
          have hfirst := no_feed_of_taken h hc (taken_of_front hold)
          simp only [Result.crlf, Result.cons, List.map_cons, Piece.crlf_of_no_feed hfirst]

end LineScan

namespace Indentation

def Start.crlf : Start → Start
  | .noCode pieces => .noCode (pieces.map Piece.crlf)
  | .code pieces levels rest => .code (pieces.map Piece.crlf) levels rest.crlf
  | .misfit column => .misfit column

theorem dropBreaks_crlf {text : Text} (h : Text.Clean text) :
    Text.dropBreaks text.crlf = Text.dropBreaks text ∧ '\n' ∉ Text.dropBreaks text := by
  rcases h.cases_feed with hnone | ⟨body, rfl, hfeed, hreturn⟩
  · refine ⟨by rw [Text.crlf_of_no_feed hnone], ?_⟩
    intro hmem
    apply hnone
    rw [← Text.dropBreaks_append_drop text]
    exact List.mem_append_left _ hmem
  · have hbody : ∀ c ∈ body, Text.isBreak c = false := by
      intro c hc
      have hcFeed : c ≠ '\n' := fun heq => hfeed (heq ▸ hc)
      have hcReturn : c ≠ '\r' := fun heq => hreturn (heq ▸ hc)
      simp [Text.isBreak, hcFeed, hcReturn]
    rw [Text.crlf_concat hfeed,
      Text.dropBreaks_append hbody (Text.isBreak_of_terminator (Or.inr rfl)),
      Text.dropBreaks_append hbody (Text.isBreak_of_terminator (Or.inl rfl))]
    exact ⟨rfl, hfeed⟩

theorem map_crlf_of_no_feed {pieces : List Piece} (h : '\n' ∉ Piece.cover pieces) :
    pieces.map Piece.crlf = pieces := by
  calc
    pieces.map Piece.crlf = pieces.map id := by
      apply List.map_congr_left
      intro piece hpiece
      exact Piece.crlf_of_no_feed fun hmem => h (List.mem_flatMap.2 ⟨piece, hpiece, hmem⟩)
    _ = pieces := List.map_id pieces

/-- A comment line is one with another terminator. -/
theorem comment_crlf (levels : List Nat) {blanks rest : Text} (h : Text.Clean ('#' :: rest))
    (hblanks : blanks.all Text.isBlank) :
    LineStart levels (blanks ++ '#' :: Text.crlf rest)
      (Start.noCode [.gap blanks, .lexeme .comment (Text.dropBreaks ('#' :: rest)),
        .lexeme .lineBreak (('#' :: rest).drop (Text.dropBreaks ('#' :: rest)).length)]).crlf := by
  obtain ⟨hcomment, hfeed⟩ := dropBreaks_crlf h
  rw [Text.crlf_cons rest (by decide)] at hcomment
  have hstart : LineStart levels (blanks ++ '#' :: Text.crlf rest) _ :=
    .comment blanks (Text.crlf rest) hblanks rfl
  have hdrop : Text.crlf (('#' :: rest).drop (Text.dropBreaks ('#' :: rest)).length) =
      ('#' :: Text.crlf rest).drop (Text.dropBreaks ('#' :: rest)).length := by
    have hsplit := Text.dropBreaks_append_drop ('#' :: rest)
    have hmap := congrArg Text.crlf hsplit
    rw [Text.crlf_append, Text.crlf_of_no_feed hfeed, Text.crlf_cons rest (by decide)] at hmap
    rw [← hmap, List.drop_left]
  rw [hcomment] at hstart
  simp only [Start.crlf, List.map_cons, List.map_nil, Piece.crlf, hdrop,
    Text.crlf_of_no_feed hfeed, Text.crlf_of_no_feed (Text.not_feed_of_blanks hblanks)]
  exact hstart

/-- A line at the start of a statement starts alike with another terminator. -/
theorem start_crlf (levels : List Nat) {line : Text} (h : Text.Clean line) :
    start levels line.crlf = (start levels line).crlf := by
  have hline : ∀ (blanks : Text) (c : Char) (rest : Text), blanks.all Text.isBlank → c ≠ '\n' →
      (blanks ++ c :: rest).crlf = blanks ++ c :: rest.crlf := by
    intro blanks c rest hblanks hc
    rw [Text.crlf_append, Text.crlf_of_no_feed (Text.not_feed_of_blanks hblanks),
      Text.crlf_cons rest hc]
  have hcode : ∀ c, BeginsCode c → c ≠ '\n' := by
    rintro c ⟨-, -, hbreak⟩ rfl
    cases hbreak
  have hgap : ∀ blanks : Text, blanks.all Text.isBlank →
      [Piece.gap blanks].map Piece.crlf = [.gap blanks] := by
    intro blanks hblanks
    apply map_crlf_of_no_feed
    rw [Piece.cover_singleton]
    exact Text.not_feed_of_blanks hblanks
  apply start_eq_of_lineStart
  have hstart := lineStart_start levels line
  generalize start levels line = st at hstart ⊢
  cases hstart with
  | blank hblanks =>
    rw [Text.crlf_of_no_feed (Text.not_feed_of_blanks hblanks), Start.crlf, hgap line hblanks]
    exact .blank hblanks
  | comment blanks rest hblanks heq =>
    rw [heq, hline blanks '#' rest hblanks (by decide)]
    rw [heq] at h
    exact comment_crlf levels (Text.Clean.of_append h) hblanks
  | lineBreak blanks c rest hblanks heq hc =>
    rw [heq] at h ⊢
    have hbehind := Text.Clean.of_append h
    simp only [Text.isBreak, Bool.or_eq_true, beq_iff_eq] at hc
    rcases hc with rfl | rfl
    · exact absurd (List.mem_cons_self ..) hbehind.no_return
    · obtain rfl := hbehind.nil_of_feed
      have hstart : LineStart levels (blanks ++ ['\r', '\n']) _ :=
        .lineBreak blanks '\r' ['\n'] hblanks rfl rfl
      rw [Text.crlf_append, Text.crlf_of_no_feed (Text.not_feed_of_blanks hblanks), Start.crlf,
        List.map_cons]
      simp only [Piece.crlf, Text.crlf_of_no_feed (Text.not_feed_of_blanks hblanks)]
      exact hstart
  | opens blanks c rest hblanks heq hc hwidth =>
    have hold : LineStart levels line _ := .opens blanks c rest hblanks heq hc hwidth
    rw [Start.crlf, map_crlf_of_no_feed (not_feed_of_code hold), heq,
      hline blanks c rest hblanks (hcode c hc), Text.crlf_cons rest (hcode c hc)]
    exact .opens blanks c _ hblanks rfl hc hwidth
  | closes blanks c rest hblanks heq hc hwidth hopen =>
    have hold : LineStart levels line _ := .closes blanks c rest hblanks heq hc hwidth hopen
    rw [Start.crlf, map_crlf_of_no_feed (not_feed_of_code hold), heq,
      hline blanks c rest hblanks (hcode c hc), Text.crlf_cons rest (hcode c hc)]
    exact .closes blanks c _ hblanks rfl hc hwidth hopen
  | stays blanks c rest hblanks heq hc hwidth =>
    have hold : LineStart levels line _ := .stays blanks c rest hblanks heq hc hwidth
    rw [Start.crlf, map_crlf_of_no_feed (not_feed_of_code hold), heq,
      hline blanks c rest hblanks (hcode c hc), Text.crlf_cons rest (hcode c hc)]
    exact .stays blanks c _ hblanks rfl hc hwidth
  | misfit blanks c rest hblanks heq hc hwidth hclosed =>
    rw [heq, hline blanks c rest hblanks (hcode c hc)]
    exact .misfit blanks c _ hblanks rfl hc hwidth hclosed

end Indentation

namespace Segmentation

open LineScan StringLiteral

def State.crlf (s : State) : State := { s with carry := s.carry.crlf }

theorem scanRest_crlf (levels : List Nat) (depth : Nat) (before : List Piece) {rest : Text}
    (h : Text.Clean rest) :
    scanRest levels depth (before.map Piece.crlf) rest.crlf =
      ((scanRest levels depth before rest).1.map Piece.crlf,
        (scanRest levels depth before rest).2.crlf) := by
  simp only [scanRest, scan_crlf h, List.map_append]
  rfl

theorem cutInString_crlf (s : State) (d : Delimiter) (text : Text) {line : Text}
    (h : Text.Clean line) :
    cutInString s.crlf d text.crlf line.crlf =
      ((cutInString s d text line).1.map Piece.crlf, (cutInString s d text line).2.crlf) := by
  unfold cutInString
  rw [splitAtCloser_crlf h, endsInContinuation_crlf h]
  cases hsplit : splitAtCloser d line with
  | some r =>
    obtain ⟨body, rest⟩ := r
    have hrest : Text.Clean rest := by
      rw [← splitAtCloser_append hsplit] at h
      exact h.of_append
    have hscan := scanRest_crlf s.levels s.depth [.lexeme .string (text ++ body)] hrest
    rw [List.map_singleton, Piece.crlf, Text.crlf_append] at hscan
    exact hscan
  | none =>
    simp only [Option.map_none]
    rw [← Text.crlf_append]
    split <;> rfl

/-- A clean line is cut alike with another terminator. -/
theorem cutLine_crlf (s : State) {line : Text} (h : Text.Clean line) :
    cutLine s.crlf line.crlf =
      (cutLine s line).map fun r => (r.1.map Piece.crlf, r.2.crlf) := by
  obtain ⟨levels, depth, carry⟩ := s
  cases carry with
  | string d text => exact congrArg Except.ok (cutInString_crlf ⟨levels, depth, _⟩ d text h)
  | continuation => exact congrArg Except.ok (scanRest_crlf levels depth [] h)
  | nothing =>
    change cutLine ⟨levels, depth, .nothing⟩ line.crlf = _
    simp only [cutLine, Indentation.start_crlf levels h]
    split
    · cases hstart : Indentation.start levels line with
      | noCode pieces => rfl
      | code pieces levels' rest =>
        have hcover := Indentation.start_covers levels line
        rw [hstart] at hcover
        have hline : Piece.cover pieces ++ rest = line := hcover
        rw [← hline] at h
        exact congrArg Except.ok (scanRest_crlf levels' depth pieces h.of_append)
      | misfit column => rfl
    · exact congrArg Except.ok (scanRest_crlf levels depth [] h)

theorem cutLines_crlf (s : State) {lines : List Text} (h : ∀ line ∈ lines, Text.Clean line) :
    cutLines s.crlf (lines.map Text.crlf) =
      (cutLines s lines).map fun r => (r.1.map Piece.crlf, r.2.crlf) := by
  induction lines generalizing s with
  | nil => rfl
  | cons line later ih =>
    obtain ⟨hline, hlater⟩ := List.forall_mem_cons.1 h
    rw [List.map_cons, cutLines, cutLines, cutLine_crlf s hline]
    cases cutLine s line with
    | error column => rfl
    | ok r =>
      simp only [Except.map, ih r.2 hlater]
      cases cutLines r.2 later with
      | error p => rfl
      | ok t => simp only [List.map_append]

end Segmentation

open Segmentation

def Token.crlf (t : Token) : Token :=
  { t with
    value := t.value.crlf
    stop := if t.value.getLast? = some '\n' then ⟨t.stop.line, t.stop.col + 1⟩ else t.stop
    line := t.line.map Text.crlf }

def LexicalError.crlf (e : LexicalError) : LexicalError := { e with line := e.line.map Text.crlf }

theorem Piece.place_crlf (lines : List Text) (p : Position) (pieces : List Piece) :
    place (lines.map Text.crlf).toArray p (pieces.map crlf) =
      (place lines.toArray p pieces).map Token.crlf := by
  induction pieces generalizing p with
  | nil => rfl
  | cons piece rest ih =>
    cases piece with
    | gap text =>
      change place _ (p.past text.crlf) (rest.map crlf) = _
      rw [Position.past_crlf, ih]
      rfl
    | lexeme kind text =>
      change token _ p kind text.crlf :: place _ (p.past text.crlf) (rest.map crlf) = _
      rw [Position.past_crlf, ih, place_lexeme, List.map_cons]
      congr 1
      simp only [token, Token.crlf, Position.stop_crlf, List.getElem?_toArray, List.getElem?_map]

theorem needsNewline_crlf {line : Text} (h : Text.Clean line) :
    needsNewline line.crlf = needsNewline line := by
  rcases h.cases_feed with hnone | ⟨body, rfl, hfeed, -⟩
  · rw [Text.crlf_of_no_feed hnone]
  · have hlast := Text.getLast?_crlf (body ++ ['\n'])
    rw [List.getLast?_concat] at hlast
    simp [needsNewline, hlast, Text.isBreak]

theorem suppliedNewline_crlf {lines : List Text} (h : ∀ line ∈ lines, Text.Clean line) :
    suppliedNewline (lines.map Text.crlf) = (suppliedNewline lines).map Token.crlf := by
  rcases List.eq_nil_or_concat lines with rfl | ⟨above, line, rfl⟩
  · rfl
  · rw [List.concat_eq_append] at h ⊢
    have hline : Text.Clean line := h line (List.mem_append_right _ (List.mem_cons_self ..))
    rw [List.map_append, List.map_singleton, suppliedNewline, suppliedNewline]
    simp only [List.getLastD_concat, List.length_append, List.length_map, List.length_singleton,
      needsNewline_crlf hline]
    split
    · rename_i hneeds
      -- A line whose end is supplied has no terminator.
      have hnone : '\n' ∉ line := by
        rcases hline.cases_feed with hnone | ⟨body, rfl, -, -⟩
        · exact hnone
        · simp [needsNewline, Text.isBreak] at hneeds
      rw [Text.crlf_of_no_feed hnone]
      rfl
    · rfl

theorem closing_crlf (lineCount : Nat) (levels : List Nat) :
    (closing lineCount levels).map Token.crlf = closing lineCount levels := by
  rw [closing, List.map_append, List.map_map]
  rfl

/-- Lines that are cut alike end alike. -/
theorem finish_crlf {lines : List Text} (h : ∀ line ∈ lines, Text.Clean line)
    (pieces : List Piece) (s : State) :
    finish (lines.map Text.crlf) (pieces.map Piece.crlf) s.crlf =
      match finish lines pieces s with
      | .ok tokens => .ok (tokens.map Token.crlf)
      | .error e => .error e.crlf := by
  obtain ⟨levels, depth, carry⟩ := s
  cases carry with
  | string d text =>
    have hopened : Position.origin.past (Piece.cover (pieces.map Piece.crlf)) =
        Position.origin.past (Piece.cover pieces) := by
      rw [Piece.cover_crlf, Position.past_crlf]
    change Except.error _ = Except.error _
    simp only [hopened, LexicalError.crlf, List.getElem?_toArray, List.getElem?_map]
  | continuation =>
    change Except.error _ = Except.error _
    rw [List.length_map]
    rfl
  | nothing =>
    change finish (lines.map Text.crlf) (pieces.map Piece.crlf) ⟨levels, depth, .nothing⟩ = _
    simp only [finish, List.length_map, Piece.place_crlf, suppliedNewline_crlf h]
    by_cases hdepth : depth = 0
    · rw [if_pos hdepth, if_pos hdepth]
      simp only [List.map_append, closing_crlf]
    · rw [if_neg hdepth, if_neg hdepth]
      rfl

/-- Sources that differ in their line terminators only are cut alike: the tokens of one are those of
the other with a carriage return in front of every line feed, and so are the errors. -/
theorem tokenize_crlf {source : Text} (h : '\r' ∉ source) :
    tokenize source.crlf =
      match tokenize source with
      | .ok tokens => .ok (tokens.map Token.crlf)
      | .error e => .error e.crlf := by
  have hclean : ∀ line ∈ Text.lines source, Text.Clean line :=
    fun line hline => Text.clean_of_mem_lines h hline
  have hcut := cutLines_crlf {} hclean
  change cutLines {} _ = _ at hcut
  simp only [tokenize, Text.lines_crlf, hcut]
  cases cutLines {} (Text.lines source) with
  | error p =>
    simp only [Except.map, LexicalError.crlf, List.getElem?_map]
  | ok r => exact finish_crlf hclean r.1 r.2

/-- A continued string, a continuation and a statement in brackets, with both terminators. -/
theorem tokenize_crlf_of_continuations :
    let source : Text := ['\x27', '\\', '\n', '\x27', '\\', '\n', '(', '\n', ')']
    let tokens : List Token :=
      [⟨.string, ['\x27', '\\', '\n', '\x27'], ⟨1, 0⟩, ⟨2, 1⟩, some ['\x27', '\\', '\n']⟩,
        ⟨.operator, ['('], ⟨3, 0⟩, ⟨3, 1⟩, some ['(', '\n']⟩,
        ⟨.lineBreak, ['\n'], ⟨3, 1⟩, ⟨3, 2⟩, some ['(', '\n']⟩,
        ⟨.operator, [')'], ⟨4, 0⟩, ⟨4, 1⟩, some [')']⟩,
        ⟨.newline, [], ⟨4, 1⟩, ⟨4, 2⟩, none⟩, ⟨.endMarker, [], ⟨5, 0⟩, ⟨5, 0⟩, none⟩]
    tokenize source = .ok tokens ∧ tokenize source.crlf = .ok (tokens.map Token.crlf) := by
  intro source tokens
  have htokens : tokenize source = .ok tokens := by rfl
  have hreturn : '\r' ∉ source := by decide
  refine ⟨htokens, ?_⟩
  rw [tokenize_crlf hreturn, htokens]

end SourceTokens
