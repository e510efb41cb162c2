import Mathlib.Data.List.Chain
import SourceTokens.Proofs.BlockTokens

/-!
The ends of statements. Comments and line breaks inside statements apart, a block begins or ends
behind the end of a statement or behind another such mark, because a line that leaves nothing open
ends in a line break that ends its statement. At the end of the source this can fail: a last line
that reads as a comment is given no end, though a statement may be open on it.
-/

namespace SourceTokens

namespace TokenKind

def isCode : TokenKind → Bool
  | name | number | string | operator => true
  | _ => false

def isBoundary : TokenKind → Bool
  | newline | indent | dedent => true
  | _ => false

variable {kind : TokenKind}

theorem isCode_of_boundary (h : kind.isBoundary) : kind.isCode = false := by
  cases kind <;> first | rfl | cases h

theorem isCode_of_structural (h : kind.isStructural) : kind.isCode = false := by
  cases kind <;> first | rfl | cases h

theorem marksBlock_of_structural (h : kind.isStructural) : kind.marksBlock := by
  cases kind <;> first | rfl | cases h

end TokenKind

def statementKinds (tokens : List Token) : List TokenKind :=
  (tokens.filter fun t => !t.isNoise).map Token.kind

/-- Whether a kind can stand directly behind another one. A block begins or ends, and the source
ends, at the boundary of a statement only. -/
def Separated (a b : TokenKind) : Prop := b.marksBlock → a.isBoundary

instance (a b : TokenKind) : Decidable (Separated a b) := inferInstanceAs (Decidable (_ → _))

/-- Whether no statement is open where a block begins or ends, or at the end of the source. -/
def StatementsClosed (tokens : List Token) : Prop := (statementKinds tokens).IsChain Separated

instance (tokens : List Token) : Decidable (StatementsClosed tokens) :=
  inferInstanceAs (Decidable ((statementKinds tokens).IsChain Separated))

/-- Whether only markers follow a token of a statement, comments and line breaks apart. -/
def EndsOpen (tokens : List Token) : Prop :=
  ∃ before kind after, statementKinds tokens = before ++ kind :: after ∧ kind.isCode ∧
    ∀ mark ∈ after, mark.isStructural

theorem statementKinds_append (a b : List Token) :
    statementKinds (a ++ b) = statementKinds a ++ statementKinds b := by
  rw [statementKinds, List.filter_append, List.map_append]
  rfl

namespace Piece

def statementKind? : Piece → Option TokenKind
  | .gap _ => none
  | .lexeme kind _ => if kind = .comment ∨ kind = .lineBreak then none else some kind

def statementKinds (pieces : List Piece) : List TokenKind := pieces.filterMap statementKind?

theorem statementKinds_append (a b : List Piece) :
    statementKinds (a ++ b) = statementKinds a ++ statementKinds b := List.filterMap_append

/-- The tokens of pieces are of the same kinds. -/
theorem statementKinds_place (table : Array Text) (p : Position) (pieces : List Piece) :
    SourceTokens.statementKinds (place table p pieces) = statementKinds pieces := by
  induction pieces generalizing p with
  | nil => rfl
  | cons piece rest ih =>
    cases piece with
    | gap text => exact ih _
    | lexeme kind text =>
      have hkept : (!(token table p kind text).isNoise) = true ↔
          ¬ (kind = .comment ∨ kind = .lineBreak) := by
        simp [Token.isNoise, token]
      rw [place_lexeme, SourceTokens.statementKinds, statementKinds, List.filter_cons]
      by_cases hnoise : kind = .comment ∨ kind = .lineBreak
      · rw [if_neg fun h => hkept.1 h hnoise,
          List.filterMap_cons_none (a := Piece.lexeme kind text) (if_pos hnoise)]
        exact ih _
      · rw [if_pos (hkept.2 hnoise),
          List.filterMap_cons_some (a := Piece.lexeme kind text) (if_neg hnoise)]
        exact congrArg (kind :: ·) (ih _)

theorem exists_lexeme_of_statementKinds {pieces : List Piece} {kind : TokenKind}
    (h : kind ∈ statementKinds pieces) :
    kind ≠ .comment ∧ kind ≠ .lineBreak ∧ ∃ text, .lexeme kind text ∈ pieces := by
  obtain ⟨piece, hmem, hkind⟩ := List.mem_filterMap.1 h
  cases piece with
  | gap text => cases hkind
  | lexeme other text =>
    simp only [statementKind?, Option.ite_none_left_eq_some, Option.some.injEq] at hkind
    obtain ⟨hnoise, rfl⟩ := hkind
    exact ⟨fun h => hnoise (Or.inl h), fun h => hnoise (Or.inr h), text, hmem⟩

end Piece

section Chains

variable {before kinds : List TokenKind}

/-- Kinds that mark no block can follow any kinds. -/
theorem isChain_append_of_unmarked (hbefore : before.IsChain Separated)
    (h : ∀ kind ∈ kinds, kind.marksBlock = false) : (before ++ kinds).IsChain Separated := by
  have hseparated : ∀ a, ∀ b ∈ kinds, Separated a b := by
    intro a b hb hmark
    rw [h b hb] at hmark
    cases hmark
  have hkinds : kinds.Pairwise Separated :=
    List.pairwise_of_forall_mem_list fun a _ b hb => hseparated a b hb
  refine List.isChain_append.2 ⟨hbefore, hkinds.isChain, ?_⟩
  intro a _ b hb
  exact hseparated a b (List.mem_of_head? hb)

/-- Marks of blocks can follow kinds that end in a boundary. -/
theorem isChain_append_of_boundary (hbefore : before.IsChain Separated)
    (hlast : ∀ kind ∈ before.getLast?, kind.isBoundary) (h : ∀ kind ∈ kinds, kind.isBoundary) :
    (before ++ kinds).IsChain Separated := by
  have hkinds : kinds.Pairwise Separated :=
    List.pairwise_of_forall_mem_list fun a ha _ _ _ => h a ha
  refine List.isChain_append.2 ⟨hbefore, hkinds.isChain, ?_⟩
  intro a ha b _ _
  exact hlast a ha

end Chains

namespace Segmentation

open LineScan StringLiteral Indentation

/-- Kinds of lexemes in front of a state. If the state leaves nothing open, they end in a
boundary. -/
def Settled (s : State) (kinds : List TokenKind) : Prop :=
  s.carry = .nothing → s.depth = 0 → ∀ kind ∈ kinds.getLast?, kind.isBoundary

theorem statementKinds_of_noCode {levels : List Nat} {line : Text} {pieces : List Piece}
    (h : LineStart levels line (.noCode pieces)) : Piece.statementKinds pieces = [] := by
  cases h with
  | blank => rfl
  | comment => rfl
  | lineBreak => rfl

/-- On a line no block begins or ends inside a statement. -/
theorem lineCut_separated {s next : State} {line : Text} {pieces : List Piece}
    {before : List TokenKind} (h : LineCut s line pieces next) (hbefore : before.IsChain Separated)
    (hsettled : Settled s before) :
    (before ++ Piece.statementKinds pieces).IsChain Separated := by
  rcases unmarked_or_code h with ⟨hunmarked, -⟩ | ⟨blanks, rest, hcarry, hdepth, hstart, rfl⟩
  · apply isChain_append_of_unmarked hbefore
    intro kind hkind
    obtain ⟨-, -, text, hmem⟩ := Piece.exists_lexeme_of_statementKinds hkind
    exact hunmarked kind text hmem
  · rw [Piece.statementKinds_append, ← List.append_assoc]
    apply isChain_append_of_unmarked
    · apply isChain_append_of_boundary hbefore (hsettled hcarry hdepth)
      intro kind hkind
      obtain ⟨-, -, text, hmem⟩ := Piece.exists_lexeme_of_statementKinds hkind
      rcases kind_of_code hstart hmem with rfl | rfl <;> rfl
    · intro kind hkind
      obtain ⟨-, -, text, hmem⟩ := Piece.exists_lexeme_of_statementKinds hkind
      exact scan_unmarked hmem

/-- A scan to the end of its line that leaves nothing open ends in the end of its statement. -/
theorem scan_settled {levels : List Nat} {depth : Nat} {text : Text} (before : List TokenKind)
    (hlast : text.getLast?.any Text.isBreak)
    (hclean : ∀ stray, .lexeme .unrecognized stray ∉ (scan depth text).pieces) :
    Settled (.ofScan levels (scan depth text))
      (before ++ Piece.statementKinds (scan depth text).pieces) := by
  intro hcarry hdepth
  obtain ⟨front, last, hpieces⟩ := exists_lineBreak_of_scan hcarry hlast hclean
  have hzero : (scan depth text).depth = 0 := hdepth
  have hkind : lineBreakKind (scan depth text).depth = .newline := by rw [hzero]; rfl
  rw [hpieces, hkind, Piece.statementKinds_append, ← List.append_assoc]
  intro kind hmem
  obtain rfl : kind = .newline := by
    have hend : Piece.statementKinds [.lexeme .newline last] = [.newline] := rfl
    rw [hend, List.getLast?_concat] at hmem
    exact (Option.some.inj hmem).symm
  rfl

/-- The terminator of a line stands behind a string that is closed on it. -/
theorem break_behind_closer {d : Delimiter} {line body rest : Text}
    (hsplit : splitAtCloser d line = some (body, rest)) (hlast : line.getLast?.any Text.isBreak) :
    rest.getLast?.any Text.isBreak := by
  have hline := splitAtCloser_append hsplit
  by_cases hne : rest = []
  · -- Otherwise the line would end in a quote.
    exfalso
    obtain ⟨front, rfl⟩ := exists_closer_of_split hsplit
    obtain ⟨quotes, hquotes⟩ := exists_quote_of_delimiter d
    rw [hne, List.append_nil, hquotes, ← List.append_assoc] at hline
    rw [← hline, List.getLast?_concat] at hlast
    cases hquote : d.quote <;> rw [hquote] at hlast <;> cases hlast
  · rwa [← hline, List.getLast?_append_of_ne_nil body hne] at hlast

/-- The terminator of a line with code stands behind the beginning of the code. -/
theorem break_behind_blanks {levels next : List Nat} {line rest : Text} {pieces : List Piece}
    (h : LineStart levels line (.code pieces next rest)) (hlast : line.getLast?.any Text.isBreak) :
    rest.getLast?.any Text.isBreak := by
  have hcovers := start_covers levels line
  rw [start_eq_of_lineStart h] at hcovers
  have hne : rest ≠ [] := by
    cases h with
    | opens blanks c rest => exact List.cons_ne_nil c rest
    | closes blanks c rest => exact List.cons_ne_nil c rest
    | stays blanks c rest => exact List.cons_ne_nil c rest
  have hline : Piece.cover pieces ++ rest = line := hcovers
  rwa [← hline, List.getLast?_append_of_ne_nil _ hne] at hlast

/-- A line with a terminator that leaves nothing open ends at the boundary of a statement. -/
theorem lineCut_settled {s next : State} {line : Text} {pieces : List Piece}
    {before : List TokenKind} (h : LineCut s line pieces next) (hsettled : Settled s before)
    (hlast : line.getLast?.any Text.isBreak)
    (hclean : ∀ stray, .lexeme .unrecognized stray ∉ pieces) :
    Settled next (before ++ Piece.statementKinds pieces) := by
  cases h with
  | closes d opened body rest hcarry hsplit =>
    have hscan : ∀ stray, .lexeme .unrecognized stray ∉ (scan s.depth rest).pieces :=
      fun stray hmem => hclean stray (List.mem_cons_of_mem _ hmem)
    rw [← List.singleton_append, Piece.statementKinds_append, ← List.append_assoc]
    exact scan_settled _ (break_behind_closer hsplit hlast) hscan
  | givesUp => exact absurd (List.mem_singleton.2 rfl) (hclean _)
  | staysOpen =>
    intro hnothing
    cases hnothing
  | noCode pieces hcarry hdepth hstart =>
    rw [statementKinds_of_noCode hstart, List.append_nil]
    exact hsettled
  | code blanks levels rest hcarry hdepth hstart =>
    have hscan : ∀ stray, .lexeme .unrecognized stray ∉ (scan s.depth rest).pieces :=
      fun stray hmem => hclean stray (List.mem_append_right _ hmem)
    rw [Piece.statementKinds_append, ← List.append_assoc]
    exact scan_settled _ (break_behind_blanks hstart hlast) hscan
  | within => exact scan_settled _ hlast hclean

/-- Behind lines with terminators that leave nothing open stands the boundary of a statement. -/
theorem cutLines_settled {s last : State} {lines : List Text} {pieces : List Piece}
    {before : List TokenKind} (h : cutLines s lines = .ok (pieces, last))
    (hlines : ∀ line ∈ lines, line.getLast?.any Text.isBreak)
    (hclean : ∀ stray, .lexeme .unrecognized stray ∉ pieces) (hbefore : before.IsChain Separated)
    (hsettled : Settled s before) :
    (before ++ Piece.statementKinds pieces).IsChain Separated ∧
      Settled last (before ++ Piece.statementKinds pieces) := by
  induction lines generalizing s pieces before with
  | nil =>
    cases h
    rw [Piece.statementKinds, List.filterMap_nil, List.append_nil]
    exact ⟨hbefore, hsettled⟩
  | cons line later ih =>
    obtain ⟨hline, hlater⟩ := List.forall_mem_cons.1 hlines
    obtain ⟨first, next, more, rfl, hfirst, hmore⟩ := exists_lineCut_of_cutLines h
    have hcleanFirst : ∀ stray, .lexeme .unrecognized stray ∉ first :=
      fun stray hmem => hclean stray (List.mem_append_left _ hmem)
    have hcleanMore : ∀ stray, .lexeme .unrecognized stray ∉ more :=
      fun stray hmem => hclean stray (List.mem_append_right _ hmem)
    rw [Piece.statementKinds_append, ← List.append_assoc]
    exact ih hmore hlater hcleanMore (lineCut_separated hfirst hbefore hsettled)
      (lineCut_settled hfirst hsettled hline hcleanFirst)

end Segmentation

open Segmentation

namespace Accepted

variable {source : Text} {tokens : List Token} {pieces : List Piece} {levels : List Nat}

/-- The kinds of a source are separated, and they end in the boundary of a statement if the source
ends in a terminator. -/
theorem pieces_separated (h : Accepted source tokens pieces levels)
    (hclean : ∀ stray, .lexeme .unrecognized stray ∉ pieces) :
    (Piece.statementKinds pieces).IsChain Separated ∧
      (source = [] ∨ source.getLast?.any Text.isBreak →
        ∀ kind ∈ (Piece.statementKinds pieces).getLast?, kind.isBoundary) := by
  obtain ⟨full, tail, hlines, hfull, htail⟩ := Text.exists_lines source
  have hcut := h.cut
  rw [hlines] at hcut
  obtain ⟨front, s, back, hpieces, hfront, hback⟩ := exists_cutLines_of_append hcut
  have hterminated : ∀ line ∈ full, line.getLast?.any Text.isBreak := by
    intro line hline
    obtain ⟨body, rfl, -⟩ := hfull line hline
    rw [List.getLast?_concat]
    rfl
  subst hpieces
  have hstart : Settled {} [] := by
    intro _ _ kind hkind
    cases hkind
  have hcleanFront : ∀ stray, .lexeme .unrecognized stray ∉ front :=
    fun stray hmem => hclean stray (List.mem_append_left _ hmem)
  have hcleanBack : ∀ stray, .lexeme .unrecognized stray ∉ back :=
    fun stray hmem => hclean stray (List.mem_append_right _ hmem)
  obtain ⟨hseparated, hsettled⟩ := cutLines_settled hfront hterminated hcleanFront .nil hstart
  rw [List.nil_append] at hseparated hsettled
  rw [Piece.statementKinds_append]
  -- All lines have terminators, except that the last one may have none.
  rcases htail with rfl | ⟨line, rfl, -, -⟩
  · cases hback
    rw [Piece.statementKinds, Piece.statementKinds, List.filterMap_nil, List.append_nil]
    exact ⟨hseparated, fun _ => hsettled rfl rfl⟩
  · have hline := lineCut_of_singleton hback
    refine ⟨lineCut_separated hline hseparated hsettled, ?_⟩
    intro hend
    have hlast := Text.getLast?_getLastD_lines source
    rw [hlines, List.getLastD_concat] at hlast
    rcases hend with rfl | hend
    · simp [Text.lines] at hlines
    · rw [← hlast] at hend
      exact lineCut_settled hline hsettled hend hcleanBack rfl rfl

end Accepted

structure KindsSplit (tokens : List Token) (inside marks : List TokenKind) : Prop where
  kinds_eq : statementKinds tokens = inside ++ marks
  separated : inside.IsChain Separated
  kind_cases : ∀ kind ∈ inside, kind.isCode ∨ kind.isBoundary
  marks_separated : marks.IsChain Separated
  marks_ne : marks ≠ []
  structural : ∀ mark ∈ marks, mark.isStructural

namespace KindsSplit

variable {tokens : List Token} {inside marks : List TokenKind}

theorem closed_of_boundary (h : KindsSplit tokens inside marks)
    (hlast : ∀ kind ∈ inside.getLast?, kind.isBoundary) : StatementsClosed tokens := by
  rw [StatementsClosed, h.kinds_eq]
  refine List.isChain_append.2 ⟨h.separated, h.marks_separated, ?_⟩
  intro kind hkind mark _ _
  exact hlast kind hkind

/-- All statements are closed exactly if the source does not end in an open one. -/
theorem closed_iff (h : KindsSplit tokens inside marks) :
    StatementsClosed tokens ↔ ¬ EndsOpen tokens := by
  constructor
  · rintro hclosed ⟨before, kind, after, hkinds, hcode, hafter⟩
    have hlast := congrArg List.getLast? hkinds
    rw [h.kinds_eq, List.getLast?_append_of_ne_nil _ h.marks_ne] at hlast
    rw [StatementsClosed, hkinds] at hclosed
    cases after with
    | nil =>
      rw [List.getLast?_concat] at hlast
      have hmark := h.structural kind (List.mem_of_getLast? hlast)
      rw [TokenKind.isCode_of_structural hmark] at hcode
      cases hcode
    | cons mark after =>
      have hmark := hafter mark (List.mem_cons_self ..)
      have hseparated := (List.isChain_append_cons_cons.1 hclosed).2.1
      have hboundary := hseparated (TokenKind.marksBlock_of_structural hmark)
      rw [TokenKind.isCode_of_boundary hboundary] at hcode
      cases hcode
  · intro hopen
    apply h.closed_of_boundary
    intro kind hkind
    obtain ⟨before, rfl⟩ := List.getLast?_eq_some_iff.1 hkind
    rcases h.kind_cases kind (List.mem_append_right _ (List.mem_singleton_self kind)) with
      hcode | hboundary
    · refine absurd ⟨before, kind, marks, ?_, hcode, h.structural⟩ hopen
      rw [h.kinds_eq, List.append_assoc]
      rfl
    · exact hboundary

end KindsSplit

namespace Accepted

variable {source : Text} {tokens : List Token} {pieces : List Piece} {levels : List Nat}

theorem statementKinds_closing (lineCount : Nat) (levels : List Nat) :
    statementKinds (closing lineCount levels) =
      List.replicate levels.tail.length .dedent ++ [.endMarker] := by
  have hkept : (closing lineCount levels).filter (fun t => !t.isNoise) =
      closing lineCount levels := by
    apply List.filter_eq_self.2
    intro t ht
    have hmark := (mem_closing ht).1
    cases hkind : t.kind <;> simp_all [Token.isNoise, TokenKind.isStructural]
  rw [statementKinds, hkept, closing, List.map_append, List.map_map]
  congr 1
  exact List.map_const' ..

/-- Dedents follow each other, and the end follows them. -/
theorem closing_separated (lineCount : Nat) (levels : List Nat) :
    (statementKinds (closing lineCount levels)).IsChain Separated := by
  rw [statementKinds_closing]
  refine List.isChain_append.2 ⟨?_, List.isChain_singleton _, ?_⟩
  · exact List.isChain_replicate_of_rel _ fun _ => rfl
  · intro kind hkind _ _ _
    rw [List.eq_of_mem_replicate (List.mem_of_getLast? hkind)]
    rfl

theorem lexeme_recognized (h : Accepted source tokens pieces levels)
    (hclean : ∀ t ∈ tokens, t.kind ≠ .unrecognized) {kind : TokenKind} {text : Text}
    (hmem : .lexeme kind text ∈ pieces) : kind ≠ .unrecognized := by
  obtain ⟨before, after, hsplit⟩ := List.append_of_mem hmem
  exact hclean _ (h.token_mem hsplit)

theorem kindsSplit (h : Accepted source tokens pieces levels)
    (hclean : ∀ t ∈ tokens, t.kind ≠ .unrecognized) :
    KindsSplit tokens
      (Piece.statementKinds pieces ++ statementKinds (suppliedNewline (Text.lines source)))
      (statementKinds (closing (Text.lines source).length levels)) := by
  have hsupplied : ∀ kind ∈ statementKinds (suppliedNewline (Text.lines source)),
      kind = .newline := by
    intro kind hkind
    obtain ⟨t, ht, rfl⟩ := List.mem_map.1 hkind
    exact (endsStatement_of_supplied (List.mem_filter.1 ht).1).kind
  refine ⟨?_, ?_, ?_, closing_separated _ _, ?_, ?_⟩
  · rw [h.tokens_eq, statementKinds_append, statementKinds_append, Piece.statementKinds_place]
  · have hseparated := (h.pieces_separated fun _ hmem => h.lexeme_recognized hclean hmem rfl).1
    apply isChain_append_of_unmarked hseparated
    intro kind hkind
    rw [hsupplied kind hkind]
    rfl
  · intro kind hkind
    rcases List.mem_append.1 hkind with hkind | hkind
    · obtain ⟨hcomment, hbreak, text, hmem⟩ := Piece.exists_lexeme_of_statementKinds hkind
      have hrecognized := h.lexeme_recognized hclean hmem
      have hend : kind ≠ .endMarker := by
        rintro rfl
        exact endMarker_not_mem h.cut text hmem
      cases kind <;> first | exact Or.inl rfl | exact Or.inr rfl | contradiction
    · rw [hsupplied kind hkind]
      exact Or.inr rfl
  · rw [statementKinds_closing]
    exact List.append_ne_nil_of_right_ne_nil _ (List.cons_ne_nil _ _)
  · intro mark hmark
    rw [statementKinds_closing] at hmark
    rcases List.mem_append.1 hmark with hmark | hmark
    · rw [List.eq_of_mem_replicate hmark]
      rfl
    · rw [List.mem_singleton.1 hmark]
      rfl

/-- A source ends in the boundary of a statement unless its last line has no terminator and reads as
a comment. -/
theorem boundary_of_end (h : Accepted source tokens pieces levels)
    (hclean : ∀ t ∈ tokens, t.kind ≠ .unrecognized)
    (hlast : source.getLast?.any Text.isBreak ∨
      (Unicode.trim ((Text.lines source).getLastD [])).head? ≠ some '#') :
    ∀ kind ∈ (Piece.statementKinds pieces ++
      statementKinds (suppliedNewline (Text.lines source))).getLast?, kind.isBoundary := by
  intro kind hkind
  rcases suppliedNewline_cases source with hnone | ⟨t, ht, hends⟩
  · have hboundary := (h.pieces_separated fun _ hmem => h.lexeme_recognized hclean hmem rfl).2
    have hempty : statementKinds [] = [] := rfl
    rw [hnone, hempty, List.append_nil] at hkind
    refine hboundary ?_ kind hkind
    by_contra hopen
    rw [not_or, Bool.not_eq_true] at hopen
    obtain ⟨hne, hbreak⟩ := hopen
    have hneeds : needsNewline ((Text.lines source).getLastD []) := by
      have hline := Text.getLast?_getLastD_lines source
      have hlineNe : (Text.lines source).getLastD [] ≠ [] := by
        intro hnil
        rw [hnil] at hline
        exact hne (List.getLast?_eq_none_iff.1 hline.symm)
      rw [hbreak] at hlast
      rw [needsNewline, hline, hbreak, List.isEmpty_eq_false_iff.2 hlineNe]
      simpa using hlast
    rw [suppliedNewline, if_pos hneeds] at hnone
    cases hnone
  · have hnewline : statementKinds [t] = [.newline] := by
      simp [statementKinds, Token.isNoise, hends.kind]
    rw [ht, hnewline, List.getLast?_concat] at hkind
    rw [← Option.some.inj hkind]
    rfl

end Accepted

/-- Without unrecognized text, all statements of a source are closed exactly if it does not end in
an open one. A source that does has a last line without a terminator that reads as a comment. -/
theorem tokenize_statements {source : Text} {tokens : List Token} (h : tokenize source = .ok tokens)
    (hclean : ∀ t ∈ tokens, t.kind ≠ .unrecognized) :
    (StatementsClosed tokens ↔ ¬ EndsOpen tokens) ∧
      (EndsOpen tokens → source.getLast?.any Text.isBreak = false ∧
        (Unicode.trim ((Text.lines source).getLastD [])).head? = some '#') := by
  obtain ⟨pieces, levels, hacc⟩ := exists_accepted h
  have hsplit := hacc.kindsSplit hclean
  refine ⟨hsplit.closed_iff, ?_⟩
  intro hopen
  by_contra hends
  refine hsplit.closed_iff.1 (hsplit.closed_of_boundary (hacc.boundary_of_end hclean ?_)) hopen
  by_contra hneither
  rw [not_or, Bool.not_eq_true, not_not] at hneither
  exact hends hneither

/-- A last line that is a comment ends behind a statement, and the block around it ends there. -/
theorem tokenize_statements_of_comment :
    let source : Text := ['x', '\n', ' ', 'y', '\n', '#']
    let tokens : List Token :=
      [⟨.name, ['x'], ⟨1, 0⟩, ⟨1, 1⟩, some ['x', '\n']⟩,
        ⟨.newline, ['\n'], ⟨1, 1⟩, ⟨1, 2⟩, some ['x', '\n']⟩,
        ⟨.indent, [' '], ⟨2, 0⟩, ⟨2, 1⟩, some [' ', 'y', '\n']⟩,
        ⟨.name, ['y'], ⟨2, 1⟩, ⟨2, 2⟩, some [' ', 'y', '\n']⟩,
        ⟨.newline, ['\n'], ⟨2, 2⟩, ⟨2, 3⟩, some [' ', 'y', '\n']⟩,
        ⟨.comment, ['#'], ⟨3, 0⟩, ⟨3, 1⟩, some ['#']⟩,
        ⟨.lineBreak, [], ⟨3, 1⟩, ⟨3, 1⟩, some ['#']⟩,
        ⟨.dedent, [], ⟨4, 0⟩, ⟨4, 0⟩, none⟩, ⟨.endMarker, [], ⟨4, 0⟩, ⟨4, 0⟩, none⟩]
    tokenize source = .ok tokens ∧ StatementsClosed tokens ∧ ¬ EndsOpen tokens := by
  intro source tokens
  have htokens : tokenize source = .ok tokens := by rfl
  have hclean : ∀ t ∈ tokens, t.kind ≠ .unrecognized := by decide
  have hclosed : StatementsClosed tokens := by decide
  exact ⟨htokens, hclosed, (tokenize_statements htokens hclean).1.1 hclosed⟩

/-- A string that ends on a line like a comment is followed by the end of the source directly. -/
theorem exists_open_statement :
    ¬ ∀ source tokens, tokenize source = .ok tokens → (∀ t ∈ tokens, t.kind ≠ .unrecognized) →
      StatementsClosed tokens := by
  intro h
  have hclosed := h ['"', '"', '"', '\n', '#', '"', '"', '"']
    [⟨.string, ['"', '"', '"', '\n', '#', '"', '"', '"'], ⟨1, 0⟩, ⟨2, 4⟩,
        some ['"', '"', '"', '\n']⟩, ⟨.endMarker, [], ⟨3, 0⟩, ⟨3, 0⟩, none⟩]
    (by rfl) (by decide)
  revert hclosed
  decide

end SourceTokens
