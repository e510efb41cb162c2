import SourceTokens.Display
import SourceTokens.Proofs.TokenForms

/-!
The short forms of tokens are told apart. No name, number, string or operator consists of white
space, so each of them is shown as its text. A text that is shown begins with an angle bracket only
if it is an operator, and no operator is a kind in angle brackets, so what looks like a kind stands
for a comment or for text that would not be seen.
-/

namespace SourceTokens

namespace Unicode

theorem exists_of_inRanges {code : Nat} {ranges : List Range} (h : inRanges code ranges) :
    ∃ range ∈ ranges, range.1 ≤ code ∧ code ≤ range.2 := by
  induction ranges with
  | nil => cases h
  | cons range later ih =>
    obtain ⟨first, last⟩ := range
    simp only [inRanges, Bool.and_eq_true, decide_eq_true_eq, Bool.or_eq_true] at h
    obtain ⟨hfirst, hlast | hlater⟩ := h
    · exact ⟨(first, last), List.mem_cons_self .., hfirst, hlast⟩
    · obtain ⟨range, hmem, hrange⟩ := ih hlater
      exact ⟨range, List.mem_cons_of_mem _ hmem, hrange⟩

/-- Tables without a range in common hold no character in common. -/
theorem inRanges_eq_false {code : Nat} {ranges others : List Range}
    (hapart : ∀ range ∈ ranges, ∀ other ∈ others, range.2 < other.1 ∨ other.2 < range.1)
    (h : inRanges code ranges) : inRanges code others = false := by
  rw [Bool.eq_false_iff]
  intro hothers
  obtain ⟨range, hrange, hfirst, hlast⟩ := exists_of_inRanges h
  obtain ⟨other, hother, hfirst', hlast'⟩ := exists_of_inRanges hothers
  rcases hapart range hrange other hother with hless | hless <;> omega

theorem isAlphabetic_of_isWhiteSpace {c : Char} (h : isWhiteSpace c) : isAlphabetic c = false :=
  inRanges_eq_false (by decide +kernel) h

variable {text : Text}

theorem isAllWhiteSpace_of_mem {c : Char} (hmem : c ∈ text) (hc : isWhiteSpace c = false) :
    isAllWhiteSpace text = false := by
  rw [Bool.eq_false_iff]
  intro hall
  have hspace := List.all_eq_true.1 hall c hmem
  rw [hc] at hspace
  cases hspace

end Unicode

namespace Word

theorem isWhiteSpace_of_isStart {c : Char} (h : isStart c) : Unicode.isWhiteSpace c = false := by
  rw [Bool.eq_false_iff]
  intro hspace
  simp only [isStart, Bool.or_eq_true, beq_iff_eq, Unicode.isAlphabetic_of_isWhiteSpace hspace,
    Bool.false_eq_true, or_false] at h
  rw [h] at hspace
  cases hspace

end Word

namespace LineScan

variable {depth : Nat} {c : Char} {rest after value : Text}

theorem isWhiteSpace_of_number (hc : c.isDigit ∨ c = '.') : Unicode.isWhiteSpace c = false := by
  rw [Bool.eq_false_iff]
  intro hspace
  rcases hc with hdigit | rfl
  · have hrange : Unicode.inRanges c.toNat [(0x30, 0x39)] = false :=
      Unicode.inRanges_eq_false (by decide) hspace
    simp only [Char.isDigit, ge_iff_le, UInt32.le_iff_toNat_le, Bool.and_eq_true,
      decide_eq_true_eq] at hdigit
    obtain ⟨hfirst, hlast⟩ := hdigit
    have hmem : Unicode.inRanges c.toNat [(0x30, 0x39)] := by
      simp only [Unicode.inRanges, Bool.or_false, Bool.and_eq_true, decide_eq_true_eq]
      exact ⟨hfirst, hlast⟩
    rw [hrange] at hmem
    cases hmem
  · cases hspace

theorem number_of_taken (h : Taken depth c rest (.lexeme .number value) after) :
    c ∈ value ∧ (c.isDigit ∨ c = '.') := by
  obtain ⟨hpos, hvalue⟩ := h.takenAs
  constructor
  · rw [hvalue, ← Nat.succ_pred_eq_of_pos hpos]
    exact List.mem_cons_self ..
  · exact (Number.length_ne_zero_iff.1 (Nat.pos_iff_ne_zero.1 hpos)).imp_right And.left

theorem exists_letters_of_closed {text literal : Text}
    (h : StringLiteral.read text = .closed literal after) :
    ∃ letters q behind, StringLiteral.lettersBeforeQuote text = some (letters, q, behind) := by
  unfold StringLiteral.read at h
  split at h
  · cases h
  · rename_i letters q behind hletters
    exact ⟨letters, q, behind, hletters⟩

/-- Only operators begin with an angle bracket. -/
theorem isSign_bracket : Segmentation.IsSign '<' .operator where
  notBlank := rfl
  notBreak := rfl
  notQuote q := by cases q <;> decide
  notLetter := by decide
  ofComment h := absurd h (by decide)
  ofTaken depth rest other text after h := by
    cases h with
    | operator => rfl
    | number hplain length hlength hpos =>
      rw [← hlength] at hpos
      have hbegins := Number.length_ne_zero_iff.1 (Nat.pos_iff_ne_zero.1 hpos)
      exact absurd (hbegins.imp_right And.left) (by decide)
    | string hplain hnumber literal after hread =>
      obtain ⟨letters, q, behind, hletters⟩ := exists_letters_of_closed hread
      have hbegins := StringLiteral.begins_of_lettersBeforeQuote hletters
      cases q <;> exact absurd hbegins (by decide)
    | name hplain hnumber hread hc => exact absurd hc (by decide)
    | numeral hplain hnumber hread hstart hc => exact absurd hc (by decide)
    | stray hplain hnumber hread hc hlongest =>
      have hnone := List.find?_eq_none.1 hlongest ['<'] (by decide)
      exact absurd (List.isPrefixOf_iff_prefix.2 ⟨rest, rfl⟩) hnone
    | backslash hc => exact absurd hc (by decide)
    | feed hc => exact absurd hc (by decide)
    | returnFeed after hc => exact absurd hc (by decide)
    | comment hc => exact absurd hc (by decide)

end LineScan

namespace TokenKind

theorem ofLabel?_label (kind : TokenKind) : ofLabel? kind.label = some kind := by
  cases kind <;> rfl

theorem placeholder_injective {kind other : TokenKind} (h : kind.placeholder = other.placeholder) :
    kind = other := by
  have hlabel := List.append_cancel_right (List.cons.inj h).2
  have hkind := ofLabel?_label kind
  rw [hlabel, ofLabel?_label, Option.some.injEq] at hkind
  exact hkind.symm

/-- No operator is a kind in angle brackets. -/
theorem placeholder_not_mem_table (kind : TokenKind) : kind.placeholder ∉ Operator.table := by
  cases kind <;> decide

end TokenKind

/-- A token that neither covers white space only nor is a comment is shown as its text. -/
theorem Token.display_of_seen {t : Token} (hkind : t.kind ≠ .comment)
    (hvalue : Unicode.isAllWhiteSpace t.value = false) : t.display = t.value := by
  rw [Token.display, if_neg]
  rw [hvalue]
  exact fun h => h.elim hkind Bool.false_ne_true

namespace Accepted

open LineScan

variable {source : Text} {tokens : List Token} {pieces : List Piece} {levels : List Nat} {t : Token}

/-- Names, numbers, strings and operators hold a character that is seen. -/
theorem seen_of_kind (h : Accepted source tokens pieces levels) (ht : t ∈ tokens)
    (hkind : t.kind ∈ [.name, .number, .string, .operator]) :
    Unicode.isAllWhiteSpace t.value = false := by
  have hform := h.hasForm ht
  simp only [List.mem_cons, List.not_mem_nil, or_false] at hkind
  rcases hkind with hkind | hkind | hkind | hkind
  · obtain ⟨lead, c, more, rest, hbetween, hvalue, hstart, -⟩ := hform.name hkind
    rw [hvalue]
    exact Unicode.isAllWhiteSpace_of_mem (List.mem_cons_self ..)
      (Word.isWhiteSpace_of_isStart hstart)
  · obtain ⟨lead, after, depth, c, rest, hbetween, htaken⟩ := h.exists_taken ht (by simp [hkind])
    rw [hkind] at htaken
    obtain ⟨hmem, hc⟩ := number_of_taken htaken
    exact Unicode.isAllWhiteSpace_of_mem hmem (isWhiteSpace_of_number hc)
  · obtain ⟨letters, body, d, hletters, hvalue⟩ := hform.string hkind
    obtain ⟨quotes, hquotes⟩ := StringLiteral.exists_quote_of_delimiter d
    have hmem : d.quote.char ∈ t.value := by simp [hvalue, hquotes]
    refine Unicode.isAllWhiteSpace_of_mem hmem ?_
    cases d.quote <;> rfl
  · have htable : ∀ entry ∈ Operator.table, Unicode.isAllWhiteSpace entry = false := by decide
    exact htable t.value (hform.operator hkind).1

/-- A kind in angle brackets is the text of no token. -/
theorem value_ne_placeholder (h : Accepted source tokens pieces levels) (ht : t ∈ tokens)
    (kind : TokenKind) : t.value ≠ kind.placeholder := by
  intro hvalue
  have hoperator : t.kind = .operator := by
    rcases h.mem_cases ht with hplace | hsupplied | hclosing
    · obtain ⟨before, other, text, after, hpieces, rfl⟩ := Piece.exists_lexeme_of_mem_place hplace
      obtain rfl : text = '<' :: kind.label ++ ['>'] := hvalue
      have hmem : .lexeme other ('<' :: (kind.label ++ ['>'])) ∈ pieces := by simp [hpieces]
      exact h.kind_of_sign isSign_bracket hmem
    · rw [(endsStatement_of_supplied hsupplied).value] at hvalue
      cases hvalue
    · rw [(mem_closing hclosing).2.1] at hvalue
      cases hvalue
  have htable := ((h.hasForm ht).operator hoperator).1
  rw [hvalue] at htable
  exact kind.placeholder_not_mem_table htable

theorem display_eq_placeholder_iff (h : Accepted source tokens pieces levels) (ht : t ∈ tokens)
    (kind : TokenKind) : t.display = kind.placeholder ↔
      kind = t.kind ∧ (t.kind = .comment ∨ Unicode.isAllWhiteSpace t.value) := by
  rw [Token.display]
  split
  · rename_i hhidden
    rw [and_iff_left hhidden]
    exact ⟨fun heq => (TokenKind.placeholder_injective heq).symm, fun heq => heq ▸ rfl⟩
  · rename_i hseen
    exact ⟨fun heq => absurd heq (h.value_ne_placeholder ht kind), fun hkind => absurd hkind.2 hseen⟩

end Accepted

/-- What is shown for the tokens of an accepted source. It is never empty, it is the text of a name,
number, string or operator, and it is a kind in angle brackets exactly if that is the kind of the
token and the token is a comment or covers white space only. -/
theorem tokenize_displays {source : Text} {tokens : List Token}
    (h : tokenize source = .ok tokens) : ∀ t ∈ tokens,
      t.display ≠ [] ∧
      (t.kind ∈ [.name, .number, .string, .operator] → t.display = t.value) ∧
      ∀ kind : TokenKind, t.display = kind.placeholder ↔
        kind = t.kind ∧ (t.kind = .comment ∨ Unicode.isAllWhiteSpace t.value) := by
  obtain ⟨pieces, levels, hacc⟩ := exists_accepted h
  refine fun t ht => ⟨t.display_ne_nil, fun hkind => ?_, hacc.display_eq_placeholder_iff ht⟩
  refine Token.display_of_seen ?_ (hacc.seen_of_kind ht hkind)
  intro hcomment
  simp [hcomment] at hkind

/-- A kind in angle brackets that stands in a source is shown as three tokens or not at all. -/
theorem tokenize_displays_of_brackets :
    let line : Text := ['<', 'N', 'L', '>', '\xa0', '#', '<', 'N', 'L', '>', '\n']
    let tokens : List Token :=
      [⟨.operator, ['<'], ⟨1, 0⟩, ⟨1, 1⟩, some line⟩,
        ⟨.name, ['N', 'L'], ⟨1, 1⟩, ⟨1, 3⟩, some line⟩,
        ⟨.operator, ['>'], ⟨1, 3⟩, ⟨1, 4⟩, some line⟩,
        ⟨.unrecognized, ['\xa0'], ⟨1, 4⟩, ⟨1, 5⟩, some line⟩,
        ⟨.comment, ['#', '<', 'N', 'L', '>'], ⟨1, 5⟩, ⟨1, 10⟩, some line⟩,
        ⟨.newline, ['\n'], ⟨1, 10⟩, ⟨1, 11⟩, some line⟩, ⟨.endMarker, [], ⟨2, 0⟩, ⟨2, 0⟩, none⟩]
    tokenize line = .ok tokens ∧
      tokens.map Token.display = [['<'], ['N', 'L'], ['>'], "<ERRORTOKEN>".toList,
        "<COMMENT>".toList, "<NEWLINE>".toList, "<ENDMARKER>".toList] ∧
      ∀ t ∈ tokens, t.display ≠ [] ∧
        (t.kind ∈ [.name, .number, .string, .operator] → t.display = t.value) ∧
        ∀ kind : TokenKind, t.display = kind.placeholder ↔
          kind = t.kind ∧ (t.kind = .comment ∨ Unicode.isAllWhiteSpace t.value) := by
  intro line tokens
  have htokens : tokenize line = .ok tokens := by rfl
  exact ⟨htokens, by decide, tokenize_displays htokens⟩

end SourceTokens
