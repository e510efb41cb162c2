import SourceTokens.Proofs.Runs
import SourceTokens.Scrub

/-!
Open brackets along the tokens of a source. The number that cutting keeps is the one that the
operators among the tokens give. Statements and blocks begin and end where no bracket is open, and a
line break that ends no statement stands in brackets or behind nothing but a comment on its line.
-/

namespace SourceTokens

def TokenKind.isLayout : TokenKind → Bool
  | newline | indent | dedent | endMarker => true
  | _ => false

/-- The number of open brackets behind a token. An opening bracket adds one, and a closing one takes
one away if there is one. -/
def Token.depthAfter (depth : Nat) (t : Token) : Nat :=
  if t.kind = .operator then
    if t.value ∈ [['('], ['['], ['\x7b']] then depth + 1
    else if t.value ∈ [[')'], [']'], ['\x7d']] then depth - 1
    else depth
  else depth

def bracketDepth (tokens : List Token) : Nat := tokens.foldl Token.depthAfter 0

/-- Whether no token before a token reaches the line on which it starts. -/
def FirstOnLine (before : List Token) (t : Token) : Prop := ∀ b ∈ before, b.stop.line < t.start.line

namespace Text

theorem not_feed_of_blanks {blanks : Text} (h : blanks.all isBlank) : '\n' ∉ blanks := by
  intro hfeed
  exact absurd (List.all_eq_true.1 h _ hfeed) (by decide)

/-- The breaks at the end of a line are all that it has. -/
theorem not_feed_of_dropBreaks {before text : Text} (hne : text ≠ [])
    (h : (∃ body, before ++ text = body ++ ['\n'] ∧ '\n' ∉ body) ∨ '\n' ∉ before ++ text) :
    '\n' ∉ dropBreaks text := by
  rcases h with ⟨body, hbody, hnone⟩ | hnone
  · obtain ⟨front, c, rfl⟩ : ∃ front c, text = front ++ [c] := by
      rcases List.eq_nil_or_concat text with rfl | ⟨front, c, rfl⟩
      · exact absurd rfl hne
      · exact ⟨front, c, List.concat_eq_append⟩
    rw [← List.append_assoc] at hbody
    obtain ⟨rfl, hc⟩ := List.append_inj' hbody rfl
    obtain rfl : c = '\n' := List.singleton_inj.1 hc
    have hdrop : dropBreaks (front ++ ['\n']) = dropBreaks front := by
      simp [dropBreaks, isBreak]
    have hfront := dropBreaks_append_drop front
    rw [hdrop]
    intro hfeed
    apply hnone
    rw [← hfront]
    exact List.mem_append_right _ (List.mem_append_left _ hfeed)
  · have hsplit := dropBreaks_append_drop text
    intro hfeed
    apply hnone
    rw [← hsplit]
    exact List.mem_append_right _ (List.mem_append_left _ hfeed)

end Text

namespace LineScan

variable {P Q : TokenKind → Nat → Prop} {depth : Nat} {a b pieces : List Piece}

theorem depthAfter_of_lexeme {kind : TokenKind} (depth : Nat) (text : Text)
    (h : kind ≠ .operator) : depthAfter depth (.lexeme kind text) = depth := by
  unfold depthAfter
  split
  · rename_i heq
    cases heq
    exact absurd rfl h
  · rfl

/-- The tokens of pieces count the same brackets. -/
theorem foldl_depthAfter_place (table : Array Text) (p : Position) (depth : Nat)
    (pieces : List Piece) :
    (Piece.place table p pieces).foldl Token.depthAfter depth = pieces.foldl depthAfter depth := by
  induction pieces generalizing p depth with
  | nil => rfl
  | cons piece rest ih =>
    cases piece with
    | gap text => exact ih _ _
    | lexeme kind text =>
      rw [Piece.place_lexeme, List.foldl_cons, List.foldl_cons, ih]
      congr 1
      by_cases hkind : kind = .operator
      · subst hkind
        simp [Token.depthAfter, Piece.token, depthAfter, Operator.depthAfter, Operator.openers,
          Operator.closers]
      · rw [depthAfter_of_lexeme depth text hkind, Token.depthAfter]
        exact if_neg hkind

def AtDepth (P : TokenKind → Nat → Prop) (depth : Nat) : List Piece → Prop
  | [] => True
  | .gap _ :: rest => AtDepth P depth rest
  | .lexeme kind text :: rest =>
    P kind depth ∧ AtDepth P (depthAfter depth (.lexeme kind text)) rest

theorem atDepth_append :
    AtDepth P depth (a ++ b) ↔ AtDepth P depth a ∧ AtDepth P (a.foldl depthAfter depth) b := by
  induction a generalizing depth with
  | nil => simp [AtDepth]
  | cons piece rest ih =>
    cases piece with
    | gap text => exact ih
    | lexeme kind text => simp [AtDepth, ih, and_assoc]

theorem AtDepth.mono (h : AtDepth P depth pieces)
    (hPQ : ∀ kind depth, P kind depth → Q kind depth) : AtDepth Q depth pieces := by
  induction pieces generalizing depth with
  | nil => trivial
  | cons piece rest ih =>
    cases piece with
    | gap text => exact ih h
    | lexeme kind text => exact ⟨hPQ _ _ h.1, ih h.2⟩

/-- Pieces without operators leave the number of open brackets as it is. -/
theorem foldl_depthAfter_of_plain (h : ∀ text, .lexeme .operator text ∉ pieces) (depth : Nat) :
    pieces.foldl depthAfter depth = depth := by
  induction pieces with
  | nil => rfl
  | cons piece rest ih =>
    have hrest := ih fun text htext => h text (List.mem_cons_of_mem _ htext)
    cases piece with
    | gap text => exact hrest
    | lexeme kind text =>
      have hkind : kind ≠ .operator := by
        rintro rfl
        exact h text (List.mem_cons_self ..)
      rw [List.foldl_cons, depthAfter_of_lexeme depth text hkind, hrest]

theorem atDepth_of_plain (h : ∀ text, .lexeme .operator text ∉ pieces)
    (hP : ∀ kind text, .lexeme kind text ∈ pieces → P kind depth) : AtDepth P depth pieces := by
  induction pieces with
  | nil => trivial
  | cons piece rest ih =>
    have hrest := ih (fun text htext => h text (List.mem_cons_of_mem _ htext))
      fun kind text htext => hP kind text (List.mem_cons_of_mem _ htext)
    cases piece with
    | gap text => exact hrest
    | lexeme kind text =>
      have hkind : kind ≠ .operator := by
        rintro rfl
        exact h text (List.mem_cons_self ..)
      refine ⟨hP kind text (List.mem_cons_self ..), ?_⟩
      rwa [depthAfter_of_lexeme depth text hkind]

def Grounded (kind : TokenKind) (depth : Nat) : Prop :=
  (kind.isLayout → depth = 0) ∧ (kind = .lineBreak → depth ≠ 0)

theorem grounded_lineBreakKind (depth : Nat) : Grounded (lineBreakKind depth) depth := by
  unfold lineBreakKind
  split
  · rename_i hdepth
    exact ⟨fun _ => hdepth, nofun⟩
  · rename_i hdepth
    exact ⟨nofun, fun _ => hdepth⟩

theorem grounded_of_taken {c : Char} {rest after : Text} {kind : TokenKind} {text : Text}
    (h : Taken depth c rest (.lexeme kind text) after) : Grounded kind depth := by
  cases h with
  | feed => exact grounded_lineBreakKind depth
  | returnFeed => exact grounded_lineBreakKind depth
  | backslash => exact ⟨nofun, nofun⟩
  | comment => exact ⟨nofun, nofun⟩
  | number => exact ⟨nofun, nofun⟩
  | string => exact ⟨nofun, nofun⟩
  | name => exact ⟨nofun, nofun⟩
  | numeral => exact ⟨nofun, nofun⟩
  | operator => exact ⟨nofun, nofun⟩
  | stray => exact ⟨nofun, nofun⟩

theorem scan_grounded (depth : Nat) (text : Text) :
    AtDepth Grounded depth (scan depth text).pieces := by
  induction depth, text using scan_induction with
  | nil => trivial
  | piece depth c rest piece after htaken hcover ih =>
    cases piece with
    | gap blanks => exact ih
    | lexeme kind text => exact ⟨grounded_of_taken htaken, ih⟩
  | continuation => trivial
  | unclosed => trivial

end LineScan

namespace Indentation

theorem kind_of_noCode {levels : List Nat} {line : Text} {pieces : List Piece}
    (h : LineStart levels line (.noCode pieces)) {kind : TokenKind} {text : Text}
    (hmem : .lexeme kind text ∈ pieces) : kind = .comment ∨ kind = .lineBreak := by
  cases h with
  | blank => simp at hmem
  | comment =>
    simp only [List.mem_cons, Piece.lexeme.injEq, List.not_mem_nil, or_false] at hmem
    rcases hmem with hgap | ⟨rfl, -⟩ | ⟨rfl, -⟩
    · cases hgap
    · exact Or.inl rfl
    · exact Or.inr rfl
  | lineBreak =>
    simp only [List.mem_cons, Piece.lexeme.injEq, List.not_mem_nil, or_false] at hmem
    rcases hmem with hgap | ⟨rfl, -⟩
    · cases hgap
    · exact Or.inr rfl

theorem kind_of_code {levels next : List Nat} {line rest : Text} {pieces : List Piece}
    (h : LineStart levels line (.code pieces next rest)) {kind : TokenKind} {text : Text}
    (hmem : .lexeme kind text ∈ pieces) : kind = .indent ∨ kind = .dedent := by
  cases h with
  | opens =>
    simp only [List.mem_singleton, Piece.lexeme.injEq] at hmem
    exact Or.inl hmem.1
  | closes =>
    simp only [List.mem_cons, List.mem_map, reduceCtorEq, false_or, Piece.lexeme.injEq] at hmem
    obtain ⟨_, -, hkind, -⟩ := hmem
    exact Or.inr hkind.symm
  | stays => simp at hmem

theorem operator_not_mem_of_noCode {levels : List Nat} {line : Text} {pieces : List Piece}
    (h : LineStart levels line (.noCode pieces)) (text : Text) :
    .lexeme .operator text ∉ pieces := by
  intro hmem
  rcases kind_of_noCode h hmem with hkind | hkind <;> cases hkind

theorem operator_not_mem_of_code {levels next : List Nat} {line rest : Text} {pieces : List Piece}
    (h : LineStart levels line (.code pieces next rest)) (text : Text) :
    .lexeme .operator text ∉ pieces := by
  intro hmem
  rcases kind_of_code h hmem with hkind | hkind <;> cases hkind

end Indentation

namespace Segmentation

open Indentation LineScan StringLiteral

theorem lineCut_depth {s next : State} {line : Text} {pieces : List Piece}
    (h : LineCut s line pieces next) : pieces.foldl depthAfter s.depth = next.depth := by
  cases h with
  | closes d text body rest hcarry hsplit =>
    change (scan s.depth rest).pieces.foldl depthAfter s.depth = _
    exact (scan_depth _ _).symm
  | givesUp => rfl
  | staysOpen => rfl
  | noCode pieces hcarry hdepth hstart =>
    exact foldl_depthAfter_of_plain (operator_not_mem_of_noCode hstart) s.depth
  | code before levels rest hcarry hdepth hstart =>
    rw [List.foldl_append, foldl_depthAfter_of_plain (operator_not_mem_of_code hstart)]
    exact (scan_depth _ _).symm
  | within => exact (scan_depth _ _).symm

/-- On a line with code, or one that begins inside a statement, each line break in brackets is one
that ends no statement. -/
theorem lineCut_grounded {s next : State} {line : Text} {pieces : List Piece}
    (h : LineCut s line pieces next) : AtDepth Grounded s.depth pieces ∨
      s.carry = .nothing ∧ LineStart s.levels line (.noCode pieces) := by
  cases h with
  | closes d text body rest hcarry hsplit =>
    exact Or.inl ⟨⟨nofun, nofun⟩, scan_grounded s.depth rest⟩
  | givesUp => exact Or.inl ⟨⟨nofun, nofun⟩, trivial⟩
  | staysOpen => exact Or.inl trivial
  | noCode pieces hcarry hdepth hstart => exact Or.inr ⟨hcarry, hstart⟩
  | code before levels rest hcarry hdepth hstart =>
    have hplain := operator_not_mem_of_code hstart
    refine Or.inl (atDepth_append.2 ⟨atDepth_of_plain hplain ?_, ?_⟩)
    · intro kind text hmem
      refine ⟨fun _ => hdepth, ?_⟩
      rintro rfl
      rcases kind_of_code hstart hmem with hkind | hkind <;> cases hkind
    · rw [foldl_depthAfter_of_plain hplain]
      exact scan_grounded _ _
  | within => exact Or.inl (scan_grounded _ _)

theorem lineCut_layout {s next : State} {line : Text} {pieces : List Piece}
    (h : LineCut s line pieces next) :
    AtDepth (fun kind depth => kind.isLayout → depth = 0) s.depth pieces := by
  rcases lineCut_grounded h with hgrounded | ⟨-, hstart⟩
  · exact hgrounded.mono fun _ _ hkind => hkind.1
  · apply atDepth_of_plain (operator_not_mem_of_noCode hstart)
    · intro kind text hmem hlayout
      rcases kind_of_noCode hstart hmem with rfl | rfl <;> cases hlayout

/-- A run of lines counts the brackets of its operators, and layout stands outside brackets. -/
theorem cutLines_depth {s last : State} {lines : List Text} {pieces : List Piece}
    (h : cutLines s lines = .ok (pieces, last)) :
    pieces.foldl depthAfter s.depth = last.depth ∧
      AtDepth (fun kind depth => kind.isLayout → depth = 0) s.depth pieces := by
  induction lines generalizing s pieces with
  | nil =>
    cases h
    exact ⟨rfl, trivial⟩
  | cons line later ih =>
    obtain ⟨first, next, more, rfl, hfirst, hmore⟩ := exists_lineCut_of_cutLines h
    obtain ⟨hdepth, hlayout⟩ := ih hmore
    rw [← lineCut_depth hfirst] at hdepth hlayout
    rw [List.foldl_append]
    exact ⟨hdepth, atDepth_append.2 ⟨lineCut_layout hfirst, hlayout⟩⟩

/-- A line break outside brackets that ends no statement has only blanks and a comment before it on
its line, and the line starts no string and no continued statement. -/
theorem lineBreak_of_lineCut {s next : State} {line : Text} {head tail : List Piece} {text : Text}
    (h : LineCut s line (head ++ .lexeme .lineBreak text :: tail) next)
    (hdepth : head.foldl depthAfter s.depth = 0)
    (hline : (∃ body, line = body ++ ['\n'] ∧ '\n' ∉ body) ∨ '\n' ∉ line) :
    s.carry = .nothing ∧ ∃ blanks, '\n' ∉ blanks ∧ (head = [.gap blanks] ∨
      ∃ comment, '\n' ∉ comment ∧ head = [.gap blanks, .lexeme .comment comment]) := by
  rcases lineCut_grounded h with hgrounded | ⟨hcarry, hstart⟩
  · exact absurd hdepth ((atDepth_append.1 hgrounded).2.1.2 rfl)
  · refine ⟨hcarry, ?_⟩
    generalize hpieces : head ++ .lexeme .lineBreak text :: tail = pieces at hstart
    cases hstart with
    | blank hblank =>
      rcases head with _ | ⟨first, _ | ⟨second, head⟩⟩ <;> simp at hpieces
    | comment blanks rest hblanks hcomment =>
      have hfeed := Text.not_feed_of_dropBreaks (List.cons_ne_nil '#' rest) (hcomment ▸ hline)
      refine ⟨blanks, Text.not_feed_of_blanks hblanks, Or.inr ⟨_, hfeed, ?_⟩⟩
      rcases head with _ | ⟨first, _ | ⟨second, _ | ⟨third, head⟩⟩⟩ <;> simp_all
    | lineBreak blanks c rest hblanks hbreak hc =>
      refine ⟨blanks, Text.not_feed_of_blanks hblanks, Or.inl ?_⟩
      rcases head with _ | ⟨first, _ | ⟨second, head⟩⟩ <;> simp_all

end Segmentation

open LineScan Segmentation

/-- Layout tokens that agree with the brackets around them. -/
structure LayoutAgrees (tokens : List Token) : Prop where
  /-- Statements end, blocks begin and end, and the source ends outside brackets. -/
  layout : ∀ before t after, tokens = before ++ t :: after → t.kind.isLayout →
    bracketDepth before = 0
  /-- Outside brackets a line break that ends no statement is the first token on its line or stands
  directly behind a comment that is. -/
  lineBreak : ∀ before t after, tokens = before ++ t :: after → t.kind = .lineBreak →
    bracketDepth before = 0 → FirstOnLine before t ∨
      ∃ front comment, before = front ++ [comment] ∧ comment.kind = .comment ∧
        comment.start.line = t.start.line ∧ FirstOnLine front comment
  /-- The break of a line that holds more than a comment ends no statement exactly inside
  brackets. -/
  endOfLine : ∀ before t after, tokens = before ++ t :: after →
    t.kind = .newline ∨ t.kind = .lineBreak →
    (∃ b ∈ before, b.isNoise = false ∧ t.start.line ≤ b.stop.line) →
    (t.kind = .lineBreak ↔ 0 < bracketDepth before)

namespace Token

/-- Tokens other than operators leave the number of open brackets as it is. -/
theorem foldl_depthAfter_of_plain {tokens : List Token} (h : ∀ t ∈ tokens, t.kind ≠ .operator)
    (depth : Nat) : tokens.foldl depthAfter depth = depth := by
  induction tokens with
  | nil => rfl
  | cons t rest ih =>
    obtain ⟨ht, hrest⟩ := List.forall_mem_cons.1 h
    rw [List.foldl_cons, depthAfter, if_neg ht, ih hrest]

end Token

namespace Accepted

variable {source : Text} {tokens before after : List Token} {t : Token} {pieces : List Piece}
  {levels : List Nat}

theorem depth_of_layout (h : Accepted source tokens pieces levels)
    (ht : tokens = before ++ t :: after) (hkind : t.kind.isLayout) : bracketDepth before = 0 := by
  obtain ⟨hdepth, hlayout⟩ := cutLines_depth h.cut
  rcases h.split_cases ht with ⟨front, kind, text, back, rfl, rfl, rfl⟩ | ⟨supplied, rfl, hbehind⟩
  · rw [bracketDepth, foldl_depthAfter_place]
    exact (atDepth_append.1 hlayout).2.1 hkind
  · have hplain : ∀ b ∈ supplied, b.kind ≠ .operator := by
      intro b hb hoperator
      have hmem := List.mem_append_left (t :: after) hb
      rw [← hbehind] at hmem
      rcases kind_of_supplied hmem with hnewline | hstructural <;> simp_all [TokenKind.isStructural]
    rw [bracketDepth, List.foldl_append, Token.foldl_depthAfter_of_plain hplain,
      foldl_depthAfter_place]
    exact hdepth

theorem first_of_lineBreak (h : Accepted source tokens pieces levels)
    (ht : tokens = before ++ t :: after) (hkind : t.kind = .lineBreak)
    (hdepth : bracketDepth before = 0) : FirstOnLine before t ∨
      ∃ front comment, before = front ++ [comment] ∧ comment.kind = .comment ∧
        comment.start.line = t.start.line ∧ FirstOnLine front comment := by
  rcases h.split_cases ht with ⟨cut, kind, text, back, rfl, rfl, rfl⟩ | ⟨supplied, -, hbehind⟩
  · obtain rfl : kind = .lineBreak := hkind
    obtain ⟨above, line, below, front, s, head, tail, next, hlines, habove, hline, rfl⟩ :=
      exists_lineCut_of_piece h.cut
    obtain ⟨hwhole, hlast⟩ := Text.whole_of_lines hlines
    rw [bracketDepth, foldl_depthAfter_place, List.foldl_append,
      (cutLines_depth habove).1] at hdepth
    obtain ⟨hcarry, blanks, hblanks, hhead⟩ :=
      lineBreak_of_lineCut hline hdepth (hlast.imp_right And.right)
    have hnone : s.carry.text = [] := by rw [hcarry]; rfl
    have hpast := past_of_cutLines hwhole habove hnone
    have hfirst : ∀ t : Token, t.start.line = above.length + 1 →
        FirstOnLine (Piece.place (Text.lines source).toArray .origin front) t := by
      intro t hstart b hb
      rw [hstart]
      exact Nat.lt_succ_of_le (stop_line_le hwhole habove hnone hb)
    have hblanksPast := Position.past_of_no_feed ⟨above.length + 1, 0⟩ hblanks
    rcases hhead with rfl | ⟨comment, hcomment, rfl⟩
    · left
      rw [Piece.place_append, Piece.place, Piece.place, List.append_nil]
      apply hfirst
      change (Position.origin.past (Piece.cover (front ++ [.gap blanks]))).line = _
      rw [Piece.cover_append, Position.past_append, hpast, Piece.cover_singleton]
      exact congrArg Position.line hblanksPast
    · right
      let table := (Text.lines source).toArray
      let start := Position.past ⟨above.length + 1, 0⟩ blanks
      refine ⟨Piece.place table .origin front, Piece.token table start .comment comment, ?_, rfl,
        ?_, ?_⟩
      · rw [Piece.place_append, hpast]
        rfl
      · have hcommentPast :=
          Position.past_of_no_feed (Position.past ⟨above.length + 1, 0⟩ blanks) hcomment
        have hstart : Position.origin.past (Piece.cover (front ++
            [.gap blanks, .lexeme .comment comment])) =
              (Position.past ⟨above.length + 1, 0⟩ blanks).past comment := by
          rw [Piece.cover_append, Position.past_append, hpast, Piece.cover_cons,
            Position.past_append, Piece.cover_singleton]
          rfl
        change _ = (Position.origin.past _).line
        rw [hstart, hcommentPast]
        rfl
      · apply hfirst
        exact congrArg Position.line hblanksPast
  · have hmem : t ∈ suppliedNewline (Text.lines source) ++
        closing (Text.lines source).length levels := by
      rw [hbehind]
      exact List.mem_append_right _ (List.mem_cons_self ..)
    rcases kind_of_supplied hmem with hnewline | hstructural <;> simp_all [TokenKind.isStructural]

end Accepted

/-- Layout tokens agree with the brackets around them. -/
theorem tokenize_layout {source : Text} {tokens : List Token} (h : tokenize source = .ok tokens) :
    LayoutAgrees tokens := by
  obtain ⟨pieces, levels, hacc⟩ := exists_accepted h
  refine ⟨fun _ _ _ => hacc.depth_of_layout, fun _ _ _ => hacc.first_of_lineBreak, ?_⟩
  rintro before t after ht hkind ⟨b, hb, hcode, hreach⟩
  constructor
  · intro hbreak
    by_contra hnone
    have hdepth : bracketDepth before = 0 := by omega
    rcases hacc.first_of_lineBreak ht hbreak hdepth with
      hfirst | ⟨front, comment, rfl, hcomment, hline, hfirst⟩
    · exact not_lt.2 hreach (hfirst b hb)
    · rcases List.mem_append.1 hb with hb | hb
      · rw [← hline] at hreach
        exact not_lt.2 hreach (hfirst b hb)
      · rw [List.mem_singleton.1 hb, Token.isNoise, hcomment] at hcode
        cases hcode
  · intro hdepth
    rcases hkind with hnewline | hbreak
    · have hzero := hacc.depth_of_layout ht (by rw [hnewline]; rfl)
      omega
    · exact hbreak

/-- A break inside brackets, one that ends a statement, and one behind a comment at the end of the
source, where it covers no text. -/
theorem tokenize_layout_of_brackets :
    let source : Text := ['[', '\n', ']', 'x', '\n', ' ', '#', 'y']
    let tokens : List Token :=
      [⟨.operator, ['['], ⟨1, 0⟩, ⟨1, 1⟩, some ['[', '\n']⟩,
        ⟨.lineBreak, ['\n'], ⟨1, 1⟩, ⟨1, 2⟩, some ['[', '\n']⟩,
        ⟨.operator, [']'], ⟨2, 0⟩, ⟨2, 1⟩, some [']', 'x', '\n']⟩,
        ⟨.name, ['x'], ⟨2, 1⟩, ⟨2, 2⟩, some [']', 'x', '\n']⟩,
        ⟨.newline, ['\n'], ⟨2, 2⟩, ⟨2, 3⟩, some [']', 'x', '\n']⟩,
        ⟨.comment, ['#', 'y'], ⟨3, 1⟩, ⟨3, 3⟩, some [' ', '#', 'y']⟩,
        ⟨.lineBreak, [], ⟨3, 3⟩, ⟨3, 3⟩, some [' ', '#', 'y']⟩,
        ⟨.endMarker, [], ⟨4, 0⟩, ⟨4, 0⟩, none⟩]
    tokenize source = .ok tokens ∧ LayoutAgrees tokens := by
  intro source tokens
  have htokens : tokenize source = .ok tokens := by rfl
  exact ⟨htokens, tokenize_layout htokens⟩

end SourceTokens
