import SourceTokens.Proofs.LexemeCuts

/-!
Where comments end. A comment alone on a line that nothing ties to the lines above ends in front of
the breaks that the line ends in, any other comment in front of the first break. The two ends differ
exactly if a carriage return stands inside the comment, and only the first kind holds one.
-/

namespace SourceTokens

/-- What is cut as a comment from a number sign on, by whether the comment is alone on a line that
starts a statement. -/
structure CommentCut (alone : Prop) (rest value : Text) : Prop where
  alone_eq : alone → value = Text.dropBreaks ('#' :: rest)
  beside_eq : ¬ alone → value = ('#' :: rest).takeWhile fun c => !Text.isBreak c

namespace LineScan

/-- Only comments begin with a number sign. -/
theorem isSign_comment : Segmentation.IsSign '#' .comment where
  notBlank := rfl
  notBreak := rfl
  notQuote q := by cases q <;> decide
  notLetter := by decide
  ofComment _ := rfl
  ofTaken depth rest other text after h := by
    have hfront := front_of_taken h
    cases hfront
    rfl

end LineScan

namespace Segmentation

open Indentation LineScan

/-- How the comment of a line is cut. -/
theorem commentCut_of_lexemeCut {s : State} {line value : Text} {head : List Piece}
    (h : LexemeCut s line head .comment value) :
    ∃ lead rest, Piece.cover head = s.carry.text ++ lead ∧ line = lead ++ '#' :: rest ∧
      CommentCut (s.carry = .nothing ∧ s.depth = 0 ∧ lead.all Text.isBlank) rest value := by
  cases h with
  | comment blanks rest hcarry hdepth hblanks hhead hline =>
    refine ⟨blanks, rest, ?_, hline, fun _ => rfl, ?_⟩
    · rw [hcarry, hhead, Piece.cover_singleton]
      rfl
    · exact fun hbeside => absurd ⟨hcarry, hdepth, hblanks⟩ hbeside
  | taken kind value lead c rest after depth hhead hline hcode htaken =>
    obtain ⟨rfl, hvalue⟩ := htaken.takenAs
    refine ⟨lead, rest, hhead, hline, ?_, fun _ => hvalue⟩
    rintro ⟨hcarry, hdepth, hblanks⟩
    -- Alone on its line the comment would have been cut with the start of the line.
    obtain ⟨before, next, behind, hstart⟩ := hcode hcarry hdepth
    have heq := start_eq_of_lineStart hstart
    rw [start_eq_of_lineStart (.comment lead rest hblanks hline)] at heq
    cases heq

end Segmentation

namespace Text

variable {text : Text}

theorem takeWhile_not_break (h : ∀ c ∈ text, isBreak c = false) (rest : Text)
    (hrest : ∀ c ∈ rest, isBreak c) : (text ++ rest).takeWhile (fun c => !isBreak c) = text := by
  rw [List.takeWhile_append_of_pos (by simpa using h)]
  cases rest with
  | nil => simp
  | cons c rest => simp [hrest c (List.mem_cons_self ..)]

/-- The first break and the breaks at the end are the same exactly if no carriage return stands
before the breaks at the end. -/
theorem dropBreaks_eq_iff (hfeed : '\n' ∉ dropBreaks text) :
    dropBreaks text = text.takeWhile (fun c => !isBreak c) ↔ '\r' ∉ dropBreaks text := by
  constructor
  · intro heq hmem
    rw [heq] at hmem
    have hreturn := List.mem_takeWhile_imp hmem
    cases hreturn
  · intro hreturn
    have hkept : ∀ c ∈ dropBreaks text, isBreak c = false := by
      intro c hc
      rw [Bool.eq_false_iff]
      intro hbreak
      simp only [isBreak, Bool.or_eq_true, beq_iff_eq] at hbreak
      rcases hbreak with rfl | rfl
      · exact hreturn hc
      · exact hfeed hc
    have hends := takeWhile_not_break hkept _ (List.all_eq_true.1 (all_isBreak_drop text))
    rw [dropBreaks_append_drop] at hends
    exact hends.symm

/-- Text without breaks at its end begins as the text does. -/
theorem head?_dropBreaks {c : Char} (hc : isBreak c = false) (rest : Text) :
    (dropBreaks (c :: rest)).head? = some c := by
  have happend := dropBreaks_append_drop (c :: rest)
  cases hkept : dropBreaks (c :: rest) with
  | nil =>
    have hbreaks := all_isBreak_drop (c :: rest)
    rw [hkept, List.length_nil, List.drop_zero, List.all_cons, hc] at hbreaks
    cases hbreaks
  | cons d kept =>
    rw [hkept] at happend
    rw [(List.cons.inj happend).1, List.head?_cons]

/-- What stands where a text starts is its first character. -/
theorem exists_cons_of_placedFrom_start {p : Position} {c : Char} (h : (p, c) ∈ placedFrom p text) :
    ∃ rest, text = c :: rest := by
  cases text with
  | nil => cases h
  | cons d rest =>
    rcases List.mem_cons.1 h with heq | hrest
    · cases heq
      exact ⟨rest, rfl⟩
    · exact absurd (bounds_of_mem_placedFrom hrest).1 (not_le.2 (Position.lt_step p d))

end Text

theorem CommentCut.head_and_feed {alone : Prop} {rest value : Text}
    (h : CommentCut alone rest value) (hfeed : '\n' ∉ Text.dropBreaks ('#' :: rest)) :
    value.head? = some '#' ∧ '\n' ∉ value := by
  by_cases halone : alone
  · rw [h.alone_eq halone]
    exact ⟨Text.head?_dropBreaks rfl rest, hfeed⟩
  · rw [h.beside_eq halone]
    exact ⟨rfl, fun hmem => by cases List.mem_takeWhile_imp hmem⟩

namespace Accepted

open Segmentation StringLiteral

variable {source line lead rest : Text} {tokens : List Token} {pieces : List Piece}
  {levels : List Nat} {number : Nat} {t : Token}

/-- Each comment is cut from a number sign of its line. -/
theorem exists_commentCut (h : Accepted source tokens pieces levels) (ht : t ∈ tokens)
    (hkind : t.kind = .comment) :
    ∃ lead rest, Text.physicalLine? source t.start.line = some (lead ++ '#' :: rest) ∧
      t.start.col = lead.length ∧
      CommentCut (FreshLine source tokens t.start.line ∧ lead.all Text.isBlank) rest t.value := by
  obtain ⟨before, kind, text, after, hpieces, rfl⟩ :=
    h.exists_lexeme_of_kind ht (by simp [hkind]) (by simp [hkind, TokenKind.isStructural])
  obtain rfl : kind = .comment := hkind
  obtain ⟨above, line, below, front, s, back, head, hat, rfl, -, hcut⟩ :=
    h.exists_lexemeCut hpieces
  obtain ⟨lead, rest, hhead, rfl, hcomment⟩ := commentCut_of_lexemeCut hcut
  have hstart : (Piece.token (Text.lines source).toArray (Position.origin.past (Piece.cover
      (front ++ head))) .comment text).start = ⟨above.length + 1, lead.length⟩ :=
    hat.past_lead hhead hat.lead_not_feed
  refine ⟨lead, rest, ?_, ?_, ?_⟩
  · rw [hstart]
    exact hat.physicalLine
  · rw [hstart]
  · rwa [hstart, hat.fresh_iff h, and_assoc]

/-- A character of a line stands in the source at its column. -/
theorem mem_placed_of_line {c : Char} (h : Accepted source tokens pieces levels)
    (hline : Text.physicalLine? source number = some (lead ++ c :: rest)) :
    ((⟨number, lead.length⟩ : Position), c) ∈ Text.placed source := by
  obtain ⟨above, below, front, s, back, rfl, hat⟩ := h.exists_cutAt hline
  have hsource : source = (above.flatten ++ lead) ++ c :: (rest ++ below.flatten) := by
    rw [← Text.flatten_lines source, hat.lines_eq]
    simp
  have hpast : Position.origin.past (above.flatten ++ lead) = ⟨above.length + 1, lead.length⟩ := by
    have habove : Position.origin.past above.flatten = _ := Text.past_flatten 1 hat.whole
    rw [Position.past_append, habove, Position.past_of_no_feed _ hat.lead_not_feed,
      Nat.zero_add, Nat.add_comm]
  have hplaced := Text.mem_placed_append_cons (above.flatten ++ lead) c (rest ++ below.flatten)
  rwa [hpast, ← hsource] at hplaced

/-- A number sign that is not inside a token begins a comment. -/
theorem exists_comment (h : Accepted source tokens pieces levels)
    (hline : Text.physicalLine? source number = some (lead ++ '#' :: rest))
    (hstart : ∀ t ∈ tokens, t.Spans ⟨number, lead.length⟩ → t.start = ⟨number, lead.length⟩) :
    ∃ t ∈ tokens, t.kind = .comment ∧ t.start = ⟨number, lead.length⟩ := by
  have hplaced := h.mem_placed_of_line hline
  rw [Text.placed_eq_placedFrom, ← h.cover] at hplaced
  obtain ⟨before, piece, after, hpieces, hq⟩ := Piece.exists_piece_of_mem_placedFrom hplaced
  cases piece with
  | gap text =>
    have hmem : '#' ∈ text := by
      rw [← Text.map_snd_placedFrom (Position.origin.past (Piece.cover before)) text]
      exact List.mem_map.2 ⟨_, hq, rfl⟩
    rcases h.shaped.each (.gap text) (by simp [hpieces]) with hblank | hcontinuation
    · cases List.all_eq_true.1 hblank '#' hmem
    · simp only [isContinuation, Bool.or_eq_true, beq_iff_eq] at hcontinuation
      rcases hcontinuation with rfl | rfl <;> simp at hmem
  | lexeme kind text =>
    have hmem := h.token_mem hpieces
    have hplace := hstart _ hmem (Text.bounds_of_mem_placedFrom hq)
    obtain ⟨value, rfl⟩ := Text.exists_cons_of_placedFrom_start (hplace ▸ hq)
    have hlexeme : .lexeme kind ('#' :: value) ∈ pieces := by simp [hpieces]
    exact ⟨_, hmem, h.kind_of_sign LineScan.isSign_comment hlexeme, hplace⟩

end Accepted

/-- Where comments are and where they end. A number sign that is not inside a token begins a
comment, and each comment is cut from a number sign of its line: in front of the breaks that the
line ends in if nothing but blanks stands before it on a line that nothing ties to the lines above,
and in front of the first break otherwise. These ends are one and the same exactly if no carriage
return stands before the breaks that the line ends in. -/
theorem tokenize_comments {source : Text} {tokens : List Token} (h : tokenize source = .ok tokens) :
    (∀ number lead rest, Text.physicalLine? source number = some (lead ++ '#' :: rest) →
      (∀ t ∈ tokens, t.Spans ⟨number, lead.length⟩ → t.start = ⟨number, lead.length⟩) →
        ∃ t ∈ tokens, t.kind = .comment ∧ t.start = ⟨number, lead.length⟩) ∧
    ∀ t ∈ tokens, t.kind = .comment → ∃ lead rest,
      Text.physicalLine? source t.start.line = some (lead ++ '#' :: rest) ∧
      t.start.col = lead.length ∧
      CommentCut (FreshLine source tokens t.start.line ∧ lead.all Text.isBlank) rest t.value ∧
      t.value.head? = some '#' ∧ '\n' ∉ t.value ∧
      (Text.dropBreaks ('#' :: rest) = (('#' :: rest).takeWhile fun c => !Text.isBreak c) ↔
        '\r' ∉ Text.dropBreaks ('#' :: rest)) := by
  obtain ⟨pieces, levels, hacc⟩ := exists_accepted h
  refine ⟨fun number lead rest => hacc.exists_comment, fun t ht hkind => ?_⟩
  obtain ⟨lead, rest, hline, hcol, hcut⟩ := hacc.exists_commentCut ht hkind
  have hfeed : '\n' ∉ Text.dropBreaks ('#' :: rest) := by
    obtain ⟨above, below, front, s, back, -, hat⟩ := hacc.exists_cutAt hline
    exact Text.not_feed_of_dropBreaks (List.cons_ne_nil '#' rest)
      ((Text.whole_of_lines hat.lines_eq).2.imp_right And.right)
  obtain ⟨hhead, hnone⟩ := hcut.head_and_feed hfeed
  exact ⟨lead, rest, hline, hcol, hcut, hhead, hnone, Text.dropBreaks_eq_iff hfeed⟩

/-- Behind a name a comment ends in front of a carriage return. Alone on the next line the same
comment goes on behind it. -/
theorem tokenize_comments_of_returns :
    let line : Text := ['#', 'a', '\r', 'b', '\n']
    let source : Text := 'x' :: line ++ line
    let tokens : List Token :=
      [⟨.name, ['x'], ⟨1, 0⟩, ⟨1, 1⟩, some ('x' :: line)⟩,
        ⟨.comment, ['#', 'a'], ⟨1, 1⟩, ⟨1, 3⟩, some ('x' :: line)⟩,
        ⟨.unrecognized, ['\r'], ⟨1, 3⟩, ⟨1, 4⟩, some ('x' :: line)⟩,
        ⟨.name, ['b'], ⟨1, 4⟩, ⟨1, 5⟩, some ('x' :: line)⟩,
        ⟨.newline, ['\n'], ⟨1, 5⟩, ⟨1, 6⟩, some ('x' :: line)⟩,
        ⟨.comment, ['#', 'a', '\r', 'b'], ⟨2, 0⟩, ⟨2, 4⟩, some line⟩,
        ⟨.lineBreak, ['\n'], ⟨2, 4⟩, ⟨2, 5⟩, some line⟩, ⟨.endMarker, [], ⟨3, 0⟩, ⟨3, 0⟩, none⟩]
    (∃ t ∈ tokens, t.kind = .comment ∧ t.start = ⟨1, 1⟩) ∧
      ∃ lead rest, Text.physicalLine? source 2 = some (lead ++ '#' :: rest) ∧ 0 = lead.length ∧
        CommentCut (FreshLine source tokens 2 ∧ lead.all Text.isBlank) rest ['#', 'a', '\r', 'b'] ∧
        ['#', 'a', '\r', 'b'].head? = some '#' ∧ '\n' ∉ ['#', 'a', '\r', 'b'] ∧
        (Text.dropBreaks ('#' :: rest) = (('#' :: rest).takeWhile fun c => !Text.isBreak c) ↔
          '\r' ∉ Text.dropBreaks ('#' :: rest)) := by
  intro line source tokens
  have htokens : tokenize source = .ok tokens := by rfl
  constructor
  · exact (tokenize_comments htokens).1 1 ['x'] line.tail (by rfl) (by decide)
  · exact (tokenize_comments htokens).2 _ (List.mem_of_getElem? (i := 5) (by rfl)) rfl

/-- There is a comment with a carriage return. -/
theorem exists_comment_with_return :
    ¬ ∀ source tokens, tokenize source = .ok tokens →
      ∀ t ∈ tokens, t.kind = .comment → '\r' ∉ t.value ∧ '\n' ∉ t.value := by
  intro h
  let line : Text := ['#', 'a', '\r', 'b', '\n']
  have hnone := h line
    [⟨.comment, ['#', 'a', '\r', 'b'], ⟨1, 0⟩, ⟨1, 4⟩, some line⟩,
      ⟨.lineBreak, ['\n'], ⟨1, 4⟩, ⟨1, 5⟩, some line⟩, ⟨.endMarker, [], ⟨2, 0⟩, ⟨2, 0⟩, none⟩]
    (by rfl) _ (List.mem_cons_self ..) rfl
  exact absurd hnone.1 (by decide)

end SourceTokens
