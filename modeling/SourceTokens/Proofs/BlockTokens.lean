import SourceTokens.Proofs.FreshLines

/-!
Blocks along the tokens of a source. An indent opens a block that is as wide as its text, and a
dedent closes the innermost one. Their widths grow inwards at every token, all blocks are closed at
the end of the source, and behind the blanks of a line with code the innermost block is as wide as
these.
-/

namespace SourceTokens

open Indentation

/-- The widths of the open blocks behind a token, innermost first. A dedent closes the innermost
block, and nothing closes the source itself, which is the last of them. -/
def Token.blocksAfter (levels : List Nat) (t : Token) : Option (List Nat) :=
  match t.kind with
  | .indent => some (width t.value :: levels)
  | .dedent => if levels.tail = [] then none else some levels.tail
  | _ => some levels

def openBlocks (tokens : List Token) : Option (List Nat) := tokens.foldlM Token.blocksAfter [0]

namespace Indentation

theorem Nested.tail {level : Nat} {levels : List Nat} (h : Nested (level :: levels))
    (hne : levels ≠ []) : Nested levels := by
  refine ⟨(List.pairwise_cons.1 h.decreasing).2, ?_⟩
  have hbottom := h.bottom
  rwa [List.getLast?_cons_of_ne_nil hne] at hbottom

/-- Behind code the innermost block is as wide as the blanks of its line. -/
theorem innermost_of_code {levels next : List Nat} {line rest : Text} {pieces : List Piece}
    (h : LineStart levels line (.code pieces next rest)) (hlevels : Nested levels) :
    ∃ outer, next = width (line.takeWhile Text.isBlank) :: outer := by
  cases h with
  | opens blanks c rest hblanks hline hc hwidth =>
    rw [hline, (split_blanks rest hblanks hc.1).1]
    exact ⟨levels, rfl⟩
  | closes blanks c rest hblanks hline hc hwidth hopen =>
    rw [hline, (split_blanks rest hblanks hc.1).1]
    have hpopped := hlevels.pop hopen
    have hhead := List.head?_dropWhile_not (width blanks < ·) levels
    have hmem : width blanks ∈ levels.dropWhile (width blanks < ·) := by
      have hsplit := List.takeWhile_append_dropWhile (p := (width blanks < ·)) (l := levels)
      rw [← hsplit] at hopen
      rcases List.mem_append.1 hopen with hinner | houter
      · have hlt := List.mem_takeWhile_imp hinner
        simp at hlt
      · exact houter
    cases hdrop : levels.dropWhile (width blanks < ·) with
    | nil =>
      rw [hdrop] at hmem
      cases hmem
    | cons level outer =>
      rw [hdrop] at hmem hhead hpopped
      refine ⟨outer, ?_⟩
      rcases List.mem_cons.1 hmem with heq | hmem
      · rw [heq]
      · have hlt := (List.pairwise_cons.1 hpopped.decreasing).1 _ hmem
        simp at hhead
        omega
  | stays blanks c rest hblanks hline hc hwidth =>
    rw [hline, (split_blanks rest hblanks hc.1).1, hwidth]
    cases levels with
    | nil => cases hlevels.bottom
    | cons level outer => exact ⟨outer, rfl⟩

theorem startOfCode_ne_noCode (levels : List Nat) (blanks rest : Text) (pieces : List Piece) :
    startOfCode levels blanks rest ≠ .noCode pieces := by
  unfold startOfCode
  simp only
  split
  · nofun
  · split
    · split <;> nofun
    · nofun

/-- A line whose first character behind its blanks begins code holds code. -/
theorem not_noCode_of_begins {levels : List Nat} {line rest : Text} {c : Char}
    (hrest : line.dropWhile Text.isBlank = c :: rest) (hcomment : c ≠ '#')
    (hbreak : Text.isBreak c = false) (pieces : List Piece) :
    ¬ LineStart levels line (.noCode pieces) := by
  intro hnone
  have hhead := List.head?_dropWhile_not Text.isBlank line
  rw [hrest] at hhead
  have hline := List.takeWhile_append_dropWhile (p := Text.isBlank) (l := line)
  have hblanks : (line.takeWhile Text.isBlank).all Text.isBlank := List.all_takeWhile
  have hstart := start_of_code levels rest hblanks ⟨hhead, hcomment, hbreak⟩
  rw [← hrest, hline, start_eq_of_lineStart hnone] at hstart
  exact startOfCode_ne_noCode _ _ _ _ hstart.symm

end Indentation

theorem TokenKind.ne_of_unmarked {kind : TokenKind} (h : kind.marksBlock = false) :
    kind ≠ .indent ∧ kind ≠ .dedent := by
  constructor
  · rintro rfl
    cases h
  · rintro rfl
    cases h

theorem Token.blocksAfter_of_unmarked (levels : List Nat) {t : Token} (hindent : t.kind ≠ .indent)
    (hdedent : t.kind ≠ .dedent) : t.blocksAfter levels = some levels := by
  unfold Token.blocksAfter
  split
  · contradiction
  · contradiction
  · rfl

inductive BlockRun : List Nat → List Token → List Nat → Prop
  | nil {levels : List Nat} (h : Nested levels) : BlockRun levels [] levels
  | cons {levels between next : List Nat} {t : Token} {rest : List Token} (h : Nested levels)
      (ht : t.blocksAfter levels = some between) (hrest : BlockRun between rest next) :
      BlockRun levels (t :: rest) next

namespace BlockRun

variable {levels middle next : List Nat} {a b tokens : List Token}

theorem nested (h : BlockRun levels tokens next) : Nested levels ∧ Nested next := by
  induction h with
  | nil h => exact ⟨h, h⟩
  | cons h ht hrest ih => exact ⟨h, ih.2⟩

theorem append (ha : BlockRun levels a middle) (hb : BlockRun middle b next) :
    BlockRun levels (a ++ b) next := by
  induction ha with
  | nil h => exact hb
  | cons h ht hrest ih => exact .cons h ht (ih hb)

theorem foldlM_eq (h : BlockRun levels tokens next) :
    tokens.foldlM Token.blocksAfter levels = some next := by
  induction h with
  | nil h => rfl
  | cons h ht hrest ih =>
    rw [List.foldlM_cons, ht]
    exact ih

/-- The beginning of a run is a run. -/
theorem exists_of_append (h : BlockRun levels (a ++ b) next) :
    ∃ middle, BlockRun levels a middle := by
  induction a generalizing levels with
  | nil => exact ⟨levels, .nil h.nested.1⟩
  | cons t rest ih =>
    cases h with
    | cons h ht hrest =>
      obtain ⟨middle, hmiddle⟩ := ih hrest
      exact ⟨middle, .cons h ht hmiddle⟩

/-- Dropping tokens that neither begin nor end blocks leaves a run. -/
theorem filter (h : BlockRun levels tokens next) {p : Token → Bool}
    (hp : ∀ t ∈ tokens, p t = false → t.kind ≠ .indent ∧ t.kind ≠ .dedent) :
    BlockRun levels (tokens.filter p) next := by
  induction h with
  | nil h => exact .nil h
  | @cons levels between next t rest h ht hrest ih =>
    obtain ⟨hfirst, hlater⟩ := List.forall_mem_cons.1 hp
    have hkept := ih hlater
    by_cases hkeep : p t
    · rw [List.filter_cons_of_pos hkeep]
      exact .cons h ht hkept
    · obtain ⟨hindent, hdedent⟩ := hfirst (Bool.not_eq_true _ ▸ hkeep)
      rw [Token.blocksAfter_of_unmarked levels hindent hdedent, Option.some.injEq] at ht
      rw [List.filter_cons_of_neg hkeep, ht]
      exact hkept

/-- Each indent opens a block and each dedent closes one. -/
theorem length_eq (h : BlockRun levels tokens next) :
    levels.length + tokens.countP (·.kind == .indent) =
      next.length + tokens.countP (·.kind == .dedent) := by
  induction h with
  | nil h => rfl
  | @cons levels between next t rest h ht hrest ih =>
    rw [List.countP_cons, List.countP_cons]
    unfold Token.blocksAfter at ht
    split at ht
    · rename_i hkind
      cases ht
      rw [List.length_cons] at ih
      simp only [hkind, beq_self_eq_true, if_true, reduceCtorEq, beq_iff_eq, if_false]
      omega
    · rename_i hkind
      split at ht
      · cases ht
      · rename_i hinner
        cases ht
        have hpos : 0 < levels.tail.length := List.length_pos_iff.2 hinner
        rw [List.length_tail] at ih hpos
        simp only [hkind, beq_self_eq_true, if_true, reduceCtorEq, beq_iff_eq, if_false]
        omega
    · rename_i hindent hdedent
      cases ht
      simp only [beq_iff_eq, if_neg hindent, if_neg hdedent]
      exact ih

end BlockRun

/-- Tokens that neither begin nor end blocks leave the open blocks as they are. -/
theorem blockRun_of_unmarked {levels : List Nat} {tokens : List Token} (hlevels : Nested levels)
    (h : ∀ t ∈ tokens, t.kind ≠ .indent ∧ t.kind ≠ .dedent) : BlockRun levels tokens levels := by
  induction tokens with
  | nil => exact .nil hlevels
  | cons t rest ih =>
    obtain ⟨⟨hindent, hdedent⟩, hrest⟩ := List.forall_mem_cons.1 h
    exact .cons hlevels (Token.blocksAfter_of_unmarked levels hindent hdedent) (ih hrest)

/-- As many dedents as there are inner blocks close these. -/
theorem blockRun_dedents {inner outer : List Nat} {t : Token} (ht : t.kind = .dedent)
    (hlevels : Nested (inner ++ outer)) (houter : outer ≠ []) :
    BlockRun (inner ++ outer) (List.replicate inner.length t) outer := by
  induction inner with
  | nil => exact .nil hlevels
  | cons level inner ih =>
    have hne : inner ++ outer ≠ [] := List.append_ne_nil_of_right_ne_nil inner houter
    refine .cons hlevels ?_ (ih (hlevels.tail hne))
    rw [Token.blocksAfter, ht]
    exact if_neg hne

namespace Segmentation

open LineScan StringLiteral

/-- A line neither begins nor ends blocks, or it starts a statement and only what stands before its
code does. -/
theorem unmarked_or_code {s next : State} {line : Text} {pieces : List Piece}
    (h : LineCut s line pieces next) :
    ((∀ kind text, .lexeme kind text ∈ pieces → kind.marksBlock = false) ∧
      next.levels = s.levels) ∨
    ∃ before rest, s.carry = .nothing ∧ s.depth = 0 ∧
      LineStart s.levels line (.code before next.levels rest) ∧
      pieces = before ++ (scan s.depth rest).pieces := by
  cases h with
  | closes d opened body rest hcarry hsplit =>
    refine Or.inl ⟨?_, rfl⟩
    intro kind text hmem
    rcases List.mem_cons.1 hmem with heq | hrest
    · cases heq
      rfl
    · exact scan_unmarked hrest
  | givesUp =>
    refine Or.inl ⟨?_, rfl⟩
    intro kind text hmem
    cases List.mem_singleton.1 hmem
    rfl
  | staysOpen => exact Or.inl ⟨nofun, rfl⟩
  | noCode pieces hcarry hdepth hstart =>
    refine Or.inl ⟨?_, rfl⟩
    intro kind text hmem
    rcases kind_of_noCode hstart hmem with rfl | rfl <;> rfl
  | code before levels rest hcarry hdepth hstart =>
    exact Or.inr ⟨before, rest, hcarry, hdepth, hstart, rfl⟩
  | within => exact Or.inl ⟨fun _ _ => scan_unmarked, rfl⟩

/-- A mark of a block stands behind the blanks of a line that starts a statement. -/
theorem lineCut_marked {s next : State} {line : Text} {head tail : List Piece} {kind : TokenKind}
    {text : Text} (h : LineCut s line (head ++ .lexeme kind text :: tail) next)
    (hkind : kind.marksBlock) : s.carry = .nothing ∧ '\n' ∉ Piece.cover head := by
  have hmem : ∀ front : List Piece, .lexeme kind text ∈ front ++ .lexeme kind text :: tail :=
    fun front => List.mem_append_right _ (List.mem_cons_self ..)
  rcases unmarked_or_code h with ⟨hunmarked, -⟩ | ⟨before, rest, hcarry, -, hstart, hpieces⟩
  · rw [hunmarked kind text (hmem head)] at hkind
    cases hkind
  · refine ⟨hcarry, ?_⟩
    rcases List.append_eq_append_iff.1 hpieces with ⟨middle, rfl, -⟩ | ⟨middle, -, hrest⟩
    · have hbefore := not_feed_of_code hstart
      rw [Piece.cover_append] at hbefore
      exact fun hfeed => hbefore (List.mem_append_left _ hfeed)
    · have hscan := hmem middle
      rw [← hrest] at hscan
      rw [scan_unmarked hscan] at hkind
      cases hkind

/-- A mark of a block is on the line on which it was cut. -/
theorem line_of_marked {source : Text} {s last : State} {above lines below : List Text}
    {front before after : List Piece} {kind : TokenKind} {text : Text}
    (hlines : Text.lines source = above ++ lines ++ below)
    (habove : cutLines {} above = .ok (front, s))
    (h : cutLines s lines = .ok (before ++ .lexeme kind text :: after, last))
    (hkind : kind.marksBlock) :
    above.length < (Position.origin.past (Piece.cover (front ++ before))).line ∧
      (Position.origin.past (Piece.cover (front ++ before))).line ≤
        above.length + lines.length := by
  obtain ⟨upper, line, lower, more, middle, head, tail, next, rfl, hupper, hline, rfl⟩ :=
    exists_lineCut_of_piece h
  -- The mark starts a statement, so nothing is open at the start of its line.
  obtain ⟨hcarry, hfeed⟩ := lineCut_marked hline hkind
  have hcut : cutLines {} (above ++ upper) = .ok (front ++ more, middle) := by
    rw [cutLines_append habove, hupper]
  have hsplit : Text.lines source = (above ++ upper) ++ line :: (lower ++ below) := by
    rw [hlines]
    simp only [List.append_assoc, List.cons_append]
  have hnone : middle.carry.text = [] := by rw [hcarry]; rfl
  have hpast := past_of_cutLines (Text.whole_of_lines hsplit).1 hcut hnone
  have hplace : (Position.origin.past (Piece.cover (front ++ (more ++ head)))).line =
      above.length + upper.length + 1 := by
    rw [← List.append_assoc, Piece.cover_append, Position.past_append, hpast,
      Position.past_of_no_feed _ hfeed, List.length_append]
  rw [hplace, List.length_append, List.length_cons]
  omega

/-- Pieces that neither begin nor end blocks leave the open blocks as they are. -/
theorem blockRun_of_pieces {levels : List Nat} {pieces : List Piece} (hlevels : Nested levels)
    (h : ∀ kind text, .lexeme kind text ∈ pieces → kind.marksBlock = false) (table : Array Text)
    (p : Position) : BlockRun levels (Piece.place table p pieces) levels := by
  apply blockRun_of_unmarked hlevels
  intro t ht
  obtain ⟨before, kind, text, after, rfl, rfl⟩ := Piece.exists_lexeme_of_mem_place ht
  exact TokenKind.ne_of_unmarked (h kind text (List.mem_append_right _ (List.mem_cons_self ..)))

/-- The blocks that a line begins or ends. -/
theorem lineCut_blocks {s next : State} {line : Text} {pieces : List Piece}
    (h : LineCut s line pieces next) (hs : Nested s.levels) (table : Array Text) (p : Position) :
    BlockRun s.levels (Piece.place table p pieces) next.levels := by
  have hnext := lineCut_nested h hs
  rcases unmarked_or_code h with ⟨hunmarked, heq⟩ | ⟨before, rest, -, -, hstart, rfl⟩
  · rw [heq]
    exact blockRun_of_pieces hs hunmarked table p
  · rw [Piece.place_append]
    refine BlockRun.append ?_ (blockRun_of_pieces hnext (fun _ _ => scan_unmarked) table _)
    generalize next.levels = levels at hnext hstart
    cases hstart with
    | opens blanks c rest hblanks hline hc hwidth => exact .cons hs rfl (.nil hnext)
    | closes blanks c rest hblanks hline hc hwidth hopen =>
      have hsplit := List.takeWhile_append_dropWhile (p := (width blanks < ·)) (l := s.levels)
      have hne : s.levels.dropWhile (width blanks < ·) ≠ [] := by
        intro hnil
        rw [hnil] at hnext
        cases hnext.bottom
      have hplace : ∀ n, Piece.place table (p.past blanks)
          (List.replicate n (.lexeme .dedent [])) =
            List.replicate n (Piece.token table (p.past blanks) .dedent []) := by
        intro n
        induction n with
        | zero => rfl
        | succ n ih => exact congrArg (_ :: ·) ih
      rw [← hsplit] at hs
      have hrun := blockRun_dedents (t := Piece.token table (p.past blanks) .dedent []) rfl hs hne
      rw [hsplit, ← hplace, ← List.map_const'] at hrun
      exact hrun
    | stays blanks c rest hblanks hline hc hwidth => exact .nil hs

/-- The blocks that a run of lines begins or ends. -/
theorem cutLines_blocks {s last : State} {lines : List Text} {pieces : List Piece}
    (h : cutLines s lines = .ok (pieces, last)) (hs : Nested s.levels) (table : Array Text)
    (p : Position) : BlockRun s.levels (Piece.place table p pieces) last.levels := by
  induction lines generalizing s p pieces with
  | nil =>
    cases h
    exact .nil hs
  | cons line later ih =>
    obtain ⟨first, next, more, rfl, hfirst, hmore⟩ := exists_lineCut_of_cutLines h
    rw [Piece.place_append]
    exact (lineCut_blocks hfirst hs table p).append (ih hmore (lineCut_nested hfirst hs) _)

theorem endMarker_not_mem {s last : State} {lines : List Text} {pieces : List Piece}
    (h : cutLines s lines = .ok (pieces, last)) (text : Text) :
    .lexeme .endMarker text ∉ pieces := by
  intro hmem
  obtain ⟨before, after, rfl⟩ := List.append_of_mem hmem
  obtain ⟨above, line, below, front, middle, head, tail, next, -, -, hline, -⟩ :=
    exists_lineCut_of_piece h
  have hmark : .lexeme .endMarker text ∈ head ++ .lexeme .endMarker text :: tail :=
    List.mem_append_right _ (List.mem_cons_self ..)
  rcases unmarked_or_code hline with ⟨hunmarked, -⟩ | ⟨blanks, rest, -, -, hstart, hpieces⟩
  · cases hunmarked _ _ hmark
  · rw [hpieces] at hmark
    rcases List.mem_append.1 hmark with hblanks | hrest
    · rcases kind_of_code hstart hblanks with hkind | hkind <;> cases hkind
    · cases scan_unmarked hrest

end Segmentation

open Segmentation LineScan

namespace Accepted

variable {source : Text} {tokens : List Token} {pieces : List Piece} {levels : List Nat}

/-- All blocks of a source are closed in front of the only mark of its end. -/
theorem exists_blockRun (h : Accepted source tokens pieces levels) :
    ∃ front mark, tokens = front ++ [mark] ∧ mark.kind = .endMarker ∧
      (∀ t ∈ front, t.kind ≠ .endMarker) ∧ BlockRun [0] front [0] := by
  let below : Position := ⟨(Text.lines source).length + 1, 0⟩
  let dedent : Token := { kind := .dedent, value := [], start := below, stop := below }
  obtain ⟨inner, rfl⟩ := List.getLast?_eq_some_iff.1 h.nested.bottom
  refine ⟨Piece.place (Text.lines source).toArray .origin pieces ++
    suppliedNewline (Text.lines source) ++ List.replicate inner.length dedent,
    { kind := .endMarker, value := [], start := below, stop := below }, ?_, rfl, ?_, ?_⟩
  · have hlength : (inner ++ [0]).tail.length = inner.length := by simp
    rw [h.tokens_eq, closing, List.map_const', hlength]
    simp only [List.append_assoc]
    rfl
  · intro t ht hkind
    rcases List.mem_append.1 ht with ht | ht
    · rcases List.mem_append.1 ht with ht | ht
      · obtain ⟨before, kind, text, after, rfl, rfl⟩ := Piece.exists_lexeme_of_mem_place ht
        obtain rfl : kind = .endMarker := hkind
        exact endMarker_not_mem h.cut text (List.mem_append_right _ (List.mem_cons_self ..))
      · rw [(endsStatement_of_supplied ht).kind] at hkind
        cases hkind
    · rw [List.eq_of_mem_replicate ht] at hkind
      cases hkind
  · have hplace := cutLines_blocks h.cut nested_root (Text.lines source).toArray .origin
    have hsupplied :
        BlockRun (inner ++ [0]) (suppliedNewline (Text.lines source)) (inner ++ [0]) := by
      apply blockRun_of_unmarked h.nested
      intro t ht
      rw [(endsStatement_of_supplied ht).kind]
      exact ⟨nofun, nofun⟩
    have hdedents := blockRun_dedents (t := dedent) rfl h.nested (List.cons_ne_nil 0 [])
    exact (hplace.append hsupplied).append hdedents

end Accepted

namespace CutAt

variable {source line : Text} {tokens : List Token} {pieces front back first more : List Piece}
  {levels : List Nat} {above below : List Text} {s next : State} {t : Token}

theorem lines_concat (h : CutAt source pieces levels above line below front s back) :
    Text.lines source = above ++ [line] ++ below := by
  rw [h.lines_eq, List.append_assoc]
  rfl

theorem cut_concat (h : CutAt source pieces levels above line below front s back)
    (hfirst : cutLines s [line] = .ok (first, next)) :
    cutLines {} (above ++ [line]) = .ok (front ++ first, next) := by
  rw [cutLines_append h.cut_above, hfirst]

/-- Marks of blocks that were cut on a line and above start there. -/
theorem line_le_of_marked (h : CutAt source pieces levels above line below front s back)
    (hfirst : cutLines s [line] = .ok (first, next)) {table : Array Text}
    (ht : t ∈ Piece.place table .origin (front ++ first)) (hkind : t.kind.marksBlock) :
    t.start.line ≤ above.length + 1 := by
  obtain ⟨before, kind, text, after, hsplit, rfl⟩ := Piece.exists_lexeme_of_mem_place ht
  have hcut := h.cut_concat hfirst
  rw [hsplit] at hcut
  have hlines : Text.lines source = [] ++ (above ++ [line]) ++ below := h.lines_concat
  have hline := (line_of_marked hlines rfl hcut hkind).2
  rw [List.nil_append, List.length_nil, Nat.zero_add] at hline
  refine hline.trans (Nat.le_of_eq ?_)
  exact List.length_append

/-- Marks of blocks that were cut below a line start below it. -/
theorem lt_line_of_marked (h : CutAt source pieces levels above line below front s back)
    (hfirst : cutLines s [line] = .ok (first, next)) {last : State}
    (hmore : cutLines next below = .ok (more, last)) {table : Array Text}
    (ht : t ∈ Piece.place table (Position.origin.past (Piece.cover (front ++ first))) more)
    (hkind : t.kind.marksBlock) : above.length + 1 < t.start.line := by
  obtain ⟨before, kind, text, after, rfl, rfl⟩ := Piece.exists_lexeme_of_mem_place ht
  have hlines : Text.lines source = above ++ [line] ++ below ++ [] := by
    rw [h.lines_concat, List.append_nil]
  have hline := (line_of_marked hlines (h.cut_concat hfirst) hmore hkind).1
  rw [Piece.cover_append, Position.past_append, List.length_append] at hline
  exact hline

/-- Marks of blocks behind the last line start below every line. -/
theorem lt_line_of_supplied (h : CutAt source pieces levels above line below front s back)
    (ht : t ∈ suppliedNewline (Text.lines source) ++ closing (Text.lines source).length levels)
    (hkind : t.kind.marksBlock) : above.length + 1 < t.start.line := by
  have hlength : (Text.lines source).length = above.length + 1 + below.length := by
    rw [h.lines_concat, List.length_append, List.length_append, List.length_singleton]
  rcases List.mem_append.1 ht with ht | ht
  · rw [(endsStatement_of_supplied ht).kind] at hkind
    cases hkind
  · rw [(mem_closing ht).2.2.1, hlength]
    change above.length + 1 < above.length + 1 + below.length + 1
    omega

/-- Up to a line, the tokens that start on it or above open and close the blocks of the lines so
far. -/
theorem blockRun_filter (h : CutAt source pieces levels above line below front s back)
    (hacc : Accepted source tokens pieces levels) (hback : back = first ++ more)
    (hfirst : cutLines s [line] = .ok (first, next))
    (hmore : cutLines next below = .ok (more, { levels := levels })) :
    BlockRun [0] (tokens.filter (·.start.line ≤ above.length + 1)) next.levels := by
  have hcut := h.cut_concat hfirst
  have hpieces : pieces = (front ++ first) ++ more := by
    rw [h.pieces_eq, hback, List.append_assoc]
  rw [hacc.tokens_eq, hpieces, Piece.place_append, List.append_assoc, List.append_assoc,
    List.filter_append]
  -- A token that starts on the line may be cut below it, but it marks no block then.
  refine BlockRun.append (?_ : BlockRun [0] _ next.levels) ?_
  · apply (cutLines_blocks hcut nested_root (Text.lines source).toArray .origin).filter
    intro t ht hlate
    apply TokenKind.ne_of_unmarked
    by_contra hmarked
    rw [Bool.not_eq_false] at hmarked
    exact (decide_eq_false_iff_not.1 hlate) (h.line_le_of_marked hfirst ht hmarked)
  · apply blockRun_of_unmarked (cutLines_nested hcut)
    intro t ht
    apply TokenKind.ne_of_unmarked
    by_contra hmarked
    rw [Bool.not_eq_false] at hmarked
    obtain ⟨ht, hearly⟩ := List.mem_filter.1 ht
    refine Nat.not_lt.2 (of_decide_eq_true hearly) ?_
    rcases List.mem_append.1 ht with ht | ht
    · exact h.lt_line_of_marked hfirst hmore ht hmarked
    · exact h.lt_line_of_supplied ht hmarked

end CutAt

/-- The blocks that the indents and dedents of a source open and close. -/
structure BlocksAgree (source : Text) (tokens : List Token) : Prop where
  /-- Behind every token the widths of the open blocks grow inwards from that of the source itself,
  which no dedent closes. -/
  nested : ∀ front, front <+: tokens → ∃ levels, openBlocks front = some levels ∧ Nested levels
  /-- Each block that is opened is closed. -/
  paired : tokens.countP (·.kind == .indent) = tokens.countP (·.kind == .dedent)
  /-- The end is marked once, behind all other tokens, and all blocks are closed there. -/
  closed : ∃ front mark, tokens = front ++ [mark] ∧ mark.kind = .endMarker ∧
    (∀ t ∈ front, t.kind ≠ .endMarker) ∧ openBlocks front = some [0]
  /-- Behind the blanks of a line with code that nothing ties to the lines above it, the innermost
  block is as wide as these. -/
  fits : ∀ number line c rest, Text.physicalLine? source number = some line →
    FreshLine source tokens number → line.dropWhile Text.isBlank = c :: rest → c ≠ '#' →
    Text.isBreak c = false →
    ∃ outer, openBlocks (tokens.filter (·.start.line ≤ number)) =
      some (width (line.takeWhile Text.isBlank) :: outer)

namespace Accepted

variable {source : Text} {tokens : List Token} {pieces : List Piece} {levels : List Nat}

/-- Behind the blanks of a line with code that starts a statement, the innermost block is as wide as
these. -/
theorem fits (h : Accepted source tokens pieces levels) {number : Nat} {line rest : Text} {c : Char}
    (hline : Text.physicalLine? source number = some line)
    (hfresh : FreshLine source tokens number) (hrest : line.dropWhile Text.isBlank = c :: rest)
    (hcomment : c ≠ '#') (hbreak : Text.isBreak c = false) :
    ∃ outer, openBlocks (tokens.filter (·.start.line ≤ number)) =
      some (width (line.takeWhile Text.isBlank) :: outer) := by
  obtain ⟨above, below, front, s, back, rfl, hcut⟩ := h.exists_cutAt hline
  obtain ⟨hcarry, hdepth⟩ := (hcut.fresh_iff h).1 hfresh
  have hbelow := hcut.cut_below
  rw [← List.singleton_append] at hbelow
  obtain ⟨first, next, more, hback, hfirst, hmore⟩ := exists_cutLines_of_append hbelow
  have hrun := hcut.blockRun_filter h hback hfirst hmore
  rw [openBlocks, hrun.foldlM_eq]
  cases lineCut_of_singleton hfirst with
  | closes d text body rest hopen =>
    rw [hcarry] at hopen
    cases hopen
  | givesUp d text hopen =>
    rw [hcarry] at hopen
    cases hopen
  | staysOpen d text hopen =>
    rw [hcarry] at hopen
    cases hopen
  | noCode pieces hnothing hzero hstart =>
    exact absurd hstart (not_noCode_of_begins hrest hcomment hbreak first)
  | code before levels rest hnothing hzero hstart =>
    obtain ⟨outer, houter⟩ := innermost_of_code hstart (cutLines_nested hcut.cut_above)
    exact ⟨outer, congrArg some houter⟩
  | within hinside =>
    rcases hinside with hcontinued | ⟨-, hopen⟩
    · rw [hcarry] at hcontinued
      cases hcontinued
    · exact absurd hdepth hopen

end Accepted

/-- The blocks of a source are balanced, and its lines are as deep as the blocks they are in. -/
theorem tokenize_blocks {source : Text} {tokens : List Token} (h : tokenize source = .ok tokens) :
    BlocksAgree source tokens := by
  obtain ⟨pieces, levels, hacc⟩ := exists_accepted h
  obtain ⟨front, mark, htokens, hmark, hfront, hrun⟩ := hacc.exists_blockRun
  have hwhole : BlockRun [0] tokens [0] := by
    rw [htokens]
    refine hrun.append (blockRun_of_unmarked nested_root ?_)
    intro t ht
    rw [List.mem_singleton.1 ht, hmark]
    exact ⟨nofun, nofun⟩
  refine ⟨?_, ?_, ⟨front, mark, htokens, hmark, hfront, hrun.foldlM_eq⟩,
    fun number line c rest => hacc.fits⟩
  · rintro before ⟨after, rfl⟩
    obtain ⟨middle, hmiddle⟩ := hwhole.exists_of_append
    exact ⟨middle, hmiddle.foldlM_eq, hmiddle.nested.2⟩
  · have hcount := hwhole.length_eq
    omega

/-- A block as wide as its tab, an inner block of mixed blanks, and two lines without code. -/
theorem tokenize_blocks_of_mixed_blanks :
    let source : Text :=
      ['x', '\n', '\t', 'y', '\n', ' ', '#', '\n', ' ', '\t', ' ', 'z', '\n', '\t', '\n']
    let tokens : List Token :=
      [⟨.name, ['x'], ⟨1, 0⟩, ⟨1, 1⟩, some ['x', '\n']⟩,
        ⟨.newline, ['\n'], ⟨1, 1⟩, ⟨1, 2⟩, some ['x', '\n']⟩,
        ⟨.indent, ['\t'], ⟨2, 0⟩, ⟨2, 1⟩, some ['\t', 'y', '\n']⟩,
        ⟨.name, ['y'], ⟨2, 1⟩, ⟨2, 2⟩, some ['\t', 'y', '\n']⟩,
        ⟨.newline, ['\n'], ⟨2, 2⟩, ⟨2, 3⟩, some ['\t', 'y', '\n']⟩,
        ⟨.comment, ['#'], ⟨3, 1⟩, ⟨3, 2⟩, some [' ', '#', '\n']⟩,
        ⟨.lineBreak, ['\n'], ⟨3, 2⟩, ⟨3, 3⟩, some [' ', '#', '\n']⟩,
        ⟨.indent, [' ', '\t', ' '], ⟨4, 0⟩, ⟨4, 3⟩, some [' ', '\t', ' ', 'z', '\n']⟩,
        ⟨.name, ['z'], ⟨4, 3⟩, ⟨4, 4⟩, some [' ', '\t', ' ', 'z', '\n']⟩,
        ⟨.newline, ['\n'], ⟨4, 4⟩, ⟨4, 5⟩, some [' ', '\t', ' ', 'z', '\n']⟩,
        ⟨.lineBreak, ['\n'], ⟨5, 1⟩, ⟨5, 2⟩, some ['\t', '\n']⟩,
        ⟨.dedent, [], ⟨6, 0⟩, ⟨6, 0⟩, none⟩, ⟨.dedent, [], ⟨6, 0⟩, ⟨6, 0⟩, none⟩,
        ⟨.endMarker, [], ⟨6, 0⟩, ⟨6, 0⟩, none⟩]
    tokenize source = .ok tokens ∧ FreshLine source tokens 4 ∧ BlocksAgree source tokens := by
  intro source tokens
  have htokens : tokenize source = .ok tokens := by rfl
  have hfresh : FreshLine source tokens 4 := ⟨by decide, by decide, by decide⟩
  exact ⟨htokens, hfresh, tokenize_blocks htokens⟩

end SourceTokens
