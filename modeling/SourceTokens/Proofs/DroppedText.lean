import SourceTokens.Proofs.FreshLines
import SourceTokens.Proofs.Scrubbing

/-!
What text scrubbing loses. Ends of lines that a scan finds are terminators, and so is what stands
behind a comment. On a line at the start of a statement a carriage return behind the blanks counts
as the end of the line as well, wherever the line ends, and what follows it on the line goes with
it.
-/

namespace SourceTokens

namespace Text

/-- Whether a line begins, behind its blanks, with a carriage return that text follows. -/
def HasStrayReturn (line : Text) : Prop :=
  (line.dropWhile isBlank).head? = some '\r' ∧ (line.dropWhile isBlank).all isBreak = false

instance (line : Text) : Decidable (HasStrayReturn line) := inferInstanceAs (Decidable (_ ∧ _))

/-- Behind the text before the last breaks of a text there are breaks only. -/
theorem all_isBreak_drop (text : Text) :
    (text.drop (dropBreaks text).length).all isBreak := by
  have htext := dropBreaks_append_drop text
  have hreverse := List.takeWhile_append_dropWhile (p := isBreak) (l := text.reverse)
  have hsplit : dropBreaks text ++ (text.reverse.takeWhile isBreak).reverse = text := by
    rw [dropBreaks, ← List.reverse_append, hreverse, List.reverse_reverse]
  have hdrop : text.drop (dropBreaks text).length = (text.reverse.takeWhile isBreak).reverse :=
    List.append_cancel_left (htext.trans hsplit.symm)
  rw [hdrop, List.all_reverse]
  exact List.all_takeWhile

/-- A line that begins with a break is a line feed, or it begins with a carriage return. -/
theorem eq_feed_of_whole {line : Text} {blanks rest : Text} {c : Char}
    (hline : line = blanks ++ c :: rest) (hc : isBreak c)
    (hwhole : (∃ body, line = body ++ ['\n'] ∧ '\n' ∉ body) ∨ '\n' ∉ line) :
    c = '\r' ∨ c = '\n' ∧ rest = [] := by
  simp only [isBreak, Bool.or_eq_true, beq_iff_eq] at hc
  rcases hc with rfl | rfl
  · exact Or.inl rfl
  · refine Or.inr ⟨rfl, ?_⟩
    have hmem : '\n' ∈ line := by
      rw [hline]
      exact List.mem_append_right _ (List.mem_cons_self ..)
    rcases hwhole with ⟨body, hbody, hfeed⟩ | hnone
    · rcases List.eq_nil_or_concat rest with rfl | ⟨front, last, rfl⟩
      · rfl
      · exfalso
        rw [hbody, List.concat_eq_append, ← List.cons_append, ← List.append_assoc] at hline
        obtain ⟨rfl, -⟩ := List.append_inj' hline rfl
        exact hfeed (List.mem_append_right _ (List.mem_cons_self ..))
    · exact absurd hmem hnone

end Text

namespace LineScan

/-- The ends of lines that are found behind the start of a line are terminators. -/
theorem all_isBreak_of_scan {depth : Nat} {text : Text} {kind : TokenKind} {lexeme : Text}
    (h : .lexeme kind lexeme ∈ (scan depth text).pieces)
    (hkind : kind = .lineBreak ∨ kind = .newline) : lexeme.all Text.isBreak := by
  induction depth, text using scan_induction with
  | nil => cases h
  | piece depth c rest piece after htaken hcover ih =>
    rcases List.mem_cons.1 h with rfl | h
    · cases htaken with
      | feed hc =>
        subst hc
        rfl
      | returnFeed => rfl
      | backslash => simp at hkind
      | comment => simp at hkind
      | number => simp at hkind
      | string => simp at hkind
      | name => simp at hkind
      | numeral => simp at hkind
      | operator => simp at hkind
      | stray => simp at hkind
    · exact ih h
  | continuation => simp at h
  | unclosed => cases h

end LineScan

namespace Segmentation

open LineScan Indentation

/-- What ends the line of a comment is made of breaks, and so is the end of a line without code that
has no stray carriage return. -/
theorem all_isBreak_of_noCode {levels : List Nat} {line : Text} {pieces : List Piece}
    {kind : TokenKind} {text : Text} (h : LineStart levels line (.noCode pieces))
    (hmem : .lexeme kind text ∈ pieces) (hkind : kind ≠ .comment)
    (hwhole : (∃ body, line = body ++ ['\n'] ∧ '\n' ∉ body) ∨ '\n' ∉ line)
    (hstray : ¬ Text.HasStrayReturn line) : text.all Text.isBreak := by
  cases h with
  | blank => cases List.mem_singleton.1 hmem
  | comment blanks rest hblanks hline =>
    simp only [List.mem_cons, reduceCtorEq, Piece.lexeme.injEq, hkind, false_and, false_or,
      List.not_mem_nil, or_false] at hmem
    rw [hmem.2]
    exact Text.all_isBreak_drop _
  | lineBreak blanks c rest hblanks hline hc =>
    simp only [List.mem_cons, reduceCtorEq, Piece.lexeme.injEq, false_or, List.not_mem_nil,
      or_false] at hmem
    rw [hmem.2]
    rcases Text.eq_feed_of_whole hline hc hwhole with rfl | ⟨rfl, rfl⟩
    · obtain ⟨-, hdrop⟩ := split_blanks rest hblanks (show Text.isBlank '\r' = false from rfl)
      by_contra hother
      rw [Bool.not_eq_true] at hother
      refine hstray ⟨?_, ?_⟩
      · rw [hline, hdrop]
        rfl
      · rw [hline, hdrop]
        exact hother
    · rfl

/-- The end of a line is made of breaks, unless the line may begin a statement and has a stray
carriage return. -/
theorem all_isBreak_of_lineCut {s next : State} {line : Text} {pieces : List Piece}
    {kind : TokenKind} {text : Text} (h : LineCut s line pieces next)
    (hmem : .lexeme kind text ∈ pieces) (hkind : kind = .lineBreak ∨ kind = .newline)
    (hwhole : (∃ body, line = body ++ ['\n'] ∧ '\n' ∉ body) ∨ '\n' ∉ line)
    (hstray : s.carry = .nothing → s.depth = 0 → ¬ Text.HasStrayReturn line) :
    text.all Text.isBreak := by
  cases h with
  | closes d opened body rest hcarry hsplit =>
    rcases List.mem_cons.1 hmem with heq | hmem
    · cases heq
      simp at hkind
    · exact all_isBreak_of_scan hmem hkind
  | givesUp d opened =>
    cases List.mem_singleton.1 hmem
    simp at hkind
  | staysOpen => cases hmem
  | noCode pieces hcarry hdepth hstart =>
    refine all_isBreak_of_noCode hstart hmem ?_ hwhole (hstray hcarry hdepth)
    rintro rfl
    simp at hkind
  | code before levels rest hcarry hdepth hstart =>
    rcases List.mem_append.1 hmem with hmem | hmem
    · rcases kind_of_code hstart hmem with rfl | rfl <;> simp at hkind
    · exact all_isBreak_of_scan hmem hkind
  | within => exact all_isBreak_of_scan hmem hkind

/-- A line that may begin a statement and has a stray carriage return ends in one line break that
holds the rest of it. -/
theorem cut_of_strayReturn {s next : State} {line : Text} {pieces : List Piece}
    (h : LineCut s line pieces next) (hcarry : s.carry = .nothing) (hdepth : s.depth = 0)
    (hstray : Text.HasStrayReturn line) :
    pieces = [.gap (line.takeWhile Text.isBlank),
      .lexeme .lineBreak (line.dropWhile Text.isBlank)] := by
  obtain ⟨rest, hrest⟩ := List.head?_eq_some_iff.1 hstray.1
  have hline := List.takeWhile_append_dropWhile (p := Text.isBlank) (l := line)
  rw [hrest] at hline ⊢
  have hstart : LineStart s.levels line _ :=
    .lineBreak (line.takeWhile Text.isBlank) '\r' rest List.all_takeWhile hline.symm rfl
  have heq := start_eq_of_lineStart hstart
  cases h with
  | closes d text body rest hother =>
    rw [hcarry] at hother
    cases hother
  | givesUp d text hother =>
    rw [hcarry] at hother
    cases hother
  | staysOpen d text hother =>
    rw [hcarry] at hother
    cases hother
  | noCode pieces hcarry' hdepth' hstart' =>
    rw [start_eq_of_lineStart hstart'] at heq
    exact Start.noCode.inj heq
  | code before levels rest hcarry' hdepth' hstart' =>
    rw [start_eq_of_lineStart hstart'] at heq
    cases heq
  | within hother =>
    rcases hother with hother | ⟨-, hopen⟩
    · rw [hcarry] at hother
      cases hother
    · exact absurd hdepth hopen

end Segmentation

open Segmentation

namespace Accepted

variable {source : Text} {tokens : List Token} {pieces : List Piece} {levels : List Nat}

/-- The line that a piece was cut from, seen with the lines around it. -/
theorem exists_cutAt_of_piece (h : Accepted source tokens pieces levels)
    {before after : List Piece} {piece : Piece} (hpieces : pieces = before ++ piece :: after) :
    ∃ above line below front s back head tail next,
      CutAt source pieces levels above line below front s back ∧
        LineCut s line (head ++ piece :: tail) next ∧ before = front ++ head := by
  have hcut := h.cut
  rw [hpieces] at hcut
  obtain ⟨above, line, below, front, s, head, tail, next, hlines, habove, hline, hbefore⟩ :=
    exists_lineCut_of_piece hcut
  rw [hlines, ← hpieces] at hcut
  obtain ⟨front', s', back, hsplit, habove', hbelow⟩ := exists_cutLines_of_append hcut
  rw [habove, Except.ok.injEq, Prod.mk.injEq] at habove'
  obtain ⟨rfl, rfl⟩ := habove'
  exact ⟨above, line, below, front, s, back, head, tail, next, ⟨hlines, hsplit, habove, hbelow⟩,
    hline, hbefore⟩

theorem exists_cutAt_of_lexeme (h : Accepted source tokens pieces levels) {kind : TokenKind}
    {text : Text} (hmem : .lexeme kind text ∈ pieces) :
    ∃ above line below front s back first next,
      CutAt source pieces levels above line below front s back ∧ LineCut s line first next ∧
        .lexeme kind text ∈ first := by
  obtain ⟨before, after, hpieces⟩ := List.append_of_mem hmem
  obtain ⟨above, line, below, front, s, back, head, tail, next, hat, hline, -⟩ :=
    h.exists_cutAt_of_piece hpieces
  exact ⟨above, line, below, front, s, back, _, next, hat, hline,
    List.mem_append_right _ (List.mem_cons_self ..)⟩

/-- What is dropped from an accepted source and is no comment is made of breaks, if no line at the
start of a statement has a stray carriage return. -/
theorem all_isBreak_of_dropped (h : Accepted source tokens pieces levels)
    (hstray : ∀ number line, Text.physicalLine? source number = some line →
      FreshLine source tokens number → ¬ Text.HasStrayReturn line)
    {t : Token} (ht : t ∈ tokens) (hdropped : t ∉ scrub tokens) (hkind : t.kind ≠ .comment) :
    t.value.all Text.isBreak := by
  have hend : t.kind = .lineBreak ∨ t.kind = .newline :=
    (kind_of_dropped ht hdropped).resolve_left hkind
  rcases h.mem_cases ht with hplace | hsupplied | hclosing
  · obtain ⟨before, kind, text, after, hpieces, rfl⟩ := Piece.exists_lexeme_of_mem_place hplace
    have hmem : .lexeme kind text ∈ pieces := by
      rw [hpieces]
      exact List.mem_append_right _ (List.mem_cons_self ..)
    obtain ⟨above, line, below, front, s, back, first, next, hat, hline, hfirst⟩ :=
      h.exists_cutAt_of_lexeme hmem
    have hwhole := (Text.whole_of_lines hat.lines_eq).2
    refine all_isBreak_of_lineCut hline hfirst hend (hwhole.imp_right And.right) ?_
    intro hcarry hdepth
    refine hstray (above.length + 1) line ?_ ((hat.fresh_iff h).2 ⟨hcarry, hdepth⟩)
    simp [Text.physicalLine?, hat.lines_eq]
  · rw [(endsStatement_of_supplied hsupplied).value]
    rfl
  · rw [(mem_closing hclosing).2.1]
    rfl

/-- A stray carriage return at the start of a statement takes the rest of its line with it. -/
theorem exists_dropped_of_strayReturn (h : Accepted source tokens pieces levels) {number : Nat}
    {line : Text} (hline : Text.physicalLine? source number = some line)
    (hfresh : FreshLine source tokens number) (hstray : Text.HasStrayReturn line) :
    ∃ t ∈ tokens, t ∉ scrub tokens ∧ t.kind = .lineBreak ∧
      t.value = line.dropWhile Text.isBlank := by
  obtain ⟨above, below, front, s, back, rfl, hat⟩ := h.exists_cutAt hline
  obtain ⟨hcarry, hdepth⟩ := (hat.fresh_iff h).1 hfresh
  obtain ⟨first, next, more, hback, hfirst, -⟩ := exists_lineCut_of_cutLines hat.cut_below
  rw [cut_of_strayReturn hfirst hcarry hdepth hstray] at hback
  have hpieces : pieces = (front ++ [.gap (line.takeWhile Text.isBlank)]) ++
      .lexeme .lineBreak (line.dropWhile Text.isBlank) :: more := by
    rw [hat.pieces_eq, hback, List.append_assoc]
    rfl
  exact ⟨_, h.token_mem hpieces, not_mem_scrub_of_noise rfl, rfl, rfl⟩

end Accepted

/-- Comments apart, what scrubbing drops is made of breaks exactly if no line at the start of a
statement has a stray carriage return. -/
theorem tokenize_dropped {source : Text} {tokens : List Token} (h : tokenize source = .ok tokens) :
    (∀ t ∈ tokens, t ∉ scrub tokens → t.kind ≠ .comment → t.value.all Text.isBreak) ↔
      ∀ number line, Text.physicalLine? source number = some line →
        FreshLine source tokens number → ¬ Text.HasStrayReturn line := by
  obtain ⟨pieces, levels, hacc⟩ := exists_accepted h
  constructor
  · intro hall number line hline hfresh hstray
    obtain ⟨t, ht, hdropped, hkind, hvalue⟩ :=
      hacc.exists_dropped_of_strayReturn hline hfresh hstray
    have hbreaks := hall t ht hdropped (by rw [hkind]; decide)
    rw [hvalue, hstray.2] at hbreaks
    cases hbreaks
  · intro hstray t ht hdropped hkind
    exact hacc.all_isBreak_of_dropped hstray ht hdropped hkind

/-- In brackets a carriage return at the start of a line takes nothing with it, so the line is tied
to the one above. -/
theorem tokenize_dropped_in_brackets :
    let source : Text := ['(', '\n', '\r', ')', '\n']
    let tokens : List Token :=
      [⟨.operator, ['('], ⟨1, 0⟩, ⟨1, 1⟩, some ['(', '\n']⟩,
        ⟨.lineBreak, ['\n'], ⟨1, 1⟩, ⟨1, 2⟩, some ['(', '\n']⟩,
        ⟨.unrecognized, ['\r'], ⟨2, 0⟩, ⟨2, 1⟩, some ['\r', ')', '\n']⟩,
        ⟨.operator, [')'], ⟨2, 1⟩, ⟨2, 2⟩, some ['\r', ')', '\n']⟩,
        ⟨.newline, ['\n'], ⟨2, 2⟩, ⟨2, 3⟩, some ['\r', ')', '\n']⟩,
        ⟨.endMarker, [], ⟨3, 0⟩, ⟨3, 0⟩, none⟩]
    tokenize source = .ok tokens ∧
      (∀ t ∈ tokens, t ∉ scrub tokens → t.kind ≠ .comment → t.value.all Text.isBreak) ∧
      ¬ FreshLine source tokens 2 := by
  intro source tokens
  have htokens : tokenize source = .ok tokens := by rfl
  have hends : ∀ t ∈ tokens, t.kind = .comment ∨ t.kind = .lineBreak ∨ t.kind = .newline →
      t.kind ≠ .comment → t.value.all Text.isBreak := by decide
  have hall : ∀ t ∈ tokens, t ∉ scrub tokens → t.kind ≠ .comment → t.value.all Text.isBreak :=
    fun t ht hdropped => hends t ht (kind_of_dropped ht hdropped)
  have hstray : Text.HasStrayReturn ['\r', ')', '\n'] := by decide
  refine ⟨htokens, hall, ?_⟩
  intro hfresh
  exact (tokenize_dropped htokens).1 hall 2 _ (by rfl) hfresh hstray

/-- A name behind a carriage return at the start of a source is lost. -/
theorem exists_dropped_name :
    ¬ ∀ source tokens, tokenize source = .ok tokens →
      ∀ t ∈ tokens, t ∉ scrub tokens → t.kind ≠ .comment → t.value.all Text.isBreak := by
  intro h
  have hbreaks := h ['\r', 'a', 'b', 'c', '\n']
    [⟨.lineBreak, ['\r', 'a', 'b', 'c', '\n'], ⟨1, 0⟩, ⟨1, 5⟩, some ['\r', 'a', 'b', 'c', '\n']⟩,
      ⟨.endMarker, [], ⟨2, 0⟩, ⟨2, 0⟩, none⟩]
    (by rfl) _ (List.mem_cons_self ..) (not_mem_scrub_of_noise rfl) (by decide)
  cases hbreaks

end SourceTokens
