import SourceTokens.Proofs.LineEnds

/-!
One line of a source and the line that is written for its tokens. Only the end of a line can change:
the spaces before a continuation go, and on a line without text in brackets the continuation itself
becomes a bare line feed. The line that is written is cut into the same code.
-/

namespace SourceTokens

/-- The kinds and texts of the lexemes that scrubbing does not drop at once. -/
def Piece.code (pieces : List Piece) : List (TokenKind × Text) :=
  pieces.filterMap fun
    | .gap _ => none
    | .lexeme kind text => if kind = .comment ∨ kind = .lineBreak then none else some (kind, text)

theorem Piece.code_append (a b : List Piece) : code (a ++ b) = code a ++ code b :=
  List.filterMap_append

theorem Piece.code_of_gaps {pieces : List Piece} (h : ∀ piece ∈ pieces, ∃ mark, piece = .gap mark) :
    code pieces = [] := by
  apply List.filterMap_eq_nil_iff.2
  intro piece hmem
  obtain ⟨mark, rfl⟩ := h piece hmem
  rfl

theorem Piece.code_of_last {front back more : List Piece} {piece : Piece}
    (h : ∀ piece ∈ back, ∃ mark, piece = .gap mark)
    (hmore : ∀ piece ∈ more, ∃ mark, piece = .gap mark) :
    code ((front ++ [piece]) ++ more) = code (front ++ piece :: back) := by
  have hsplit : front ++ piece :: back = (front ++ [piece]) ++ back := by
    rw [List.append_assoc]
    rfl
  rw [hsplit, code_append, code_append _ back, code_of_gaps h, code_of_gaps hmore]

namespace Text

def Whole (line : Text) : Prop := ∃ body, line = body ++ ['\n'] ∧ '\n' ∉ body

theorem Whole.feed {line : Text} (h : Whole line) : '\n' ∈ line := by
  obtain ⟨body, rfl, -⟩ := h
  exact List.mem_append_right _ (List.mem_cons_self ..)

/-- The line feed of a line does not lie in front of its end. -/
theorem not_feed_of_whole {front back : Text} (h : Whole (front ++ back)) (hback : back ≠ []) :
    '\n' ∉ front := by
  obtain ⟨body, hline, hbody⟩ := h
  rcases List.append_eq_append_iff.1 hline with ⟨more, rfl, -⟩ | ⟨more, rfl, hmore⟩
  · exact fun hfeed => hbody (List.mem_append_left _ hfeed)
  · rcases List.append_eq_singleton_iff.1 hmore.symm with ⟨rfl, -⟩ | ⟨-, hnone⟩
    · rwa [List.append_nil]
    · exact absurd hnone hback

end Text

namespace Rebuild

def StartsAt (p : Position) (tokens : List Token) : Prop :=
  ∃ t rest, tokens = t :: rest ∧ t.start = p ∧ t.writesNothing = false

variable {p : Position} {pieces front back : List Piece} {behind : List Token} {kind : TokenKind}
  {text : Text}

theorem not_feed_of_spaces (h : ∀ c ∈ text, c = ' ') : '\n' ∉ text :=
  fun hfeed => absurd (h _ hfeed) (by decide)

/-- What is written for pieces in front of a token that is written directly behind them. -/
theorem written_place_of_starts (table : Array Text)
    (hspaces : ∀ text, .gap text ∈ pieces → ∀ c ∈ text, c = ' ')
    (hstarts : StartsAt (p.past (Piece.cover pieces)) behind) :
    written p (Piece.place table p pieces ++ behind) =
      Piece.cover pieces ++ written (p.past (Piece.cover pieces)) behind := by
  obtain ⟨t, rest, rfl, hstart, hwrites⟩ := hstarts
  have hfeed : ∀ text, .gap text ∈ pieces → '\n' ∉ text :=
    fun text htext => not_feed_of_spaces (hspaces text htext)
  rw [written_place table p rest hfeed hwrites hstart, flatMap_spaced_of_spaces hspaces,
    written_cons _ _ hwrites, hstart, padding_self, List.nil_append]

/-- What is written for pieces up to the last lexeme with text. -/
theorem written_place_of_last (table : Array Text)
    (hspaces : ∀ text, .gap text ∈ front → ∀ c ∈ text, c = ' ')
    (hwrites : silent (.lexeme kind text) = false) (hback : ∀ piece ∈ back, silent piece) :
    written p (Piece.place table p (front ++ .lexeme kind text :: back) ++ behind) =
      Piece.cover (front ++ [.lexeme kind text]) ++
        written (p.past (Piece.cover (front ++ [.lexeme kind text]))) behind := by
  have hfeed : ∀ text, .gap text ∈ front → '\n' ∉ text :=
    fun text htext => not_feed_of_spaces (hspaces text htext)
  have hplace := written_place table p
    (t := Piece.token table (p.past (Piece.cover front)) kind text)
    (Piece.place table ((p.past (Piece.cover front)).past text) back ++ behind) hfeed hwrites rfl
  rw [Piece.place_append, Piece.place_lexeme, List.append_assoc, List.cons_append, hplace,
    written_append_of_writesNothing _ _ fun t => silent_token hback,
    flatMap_spaced_of_spaces hspaces, Piece.cover_append, Piece.cover_singleton,
    List.append_assoc, Position.past_append]
  rfl

def PlainGaps (pieces : List Piece) : Prop :=
  ∀ text, .gap text ∈ pieces → (∀ c ∈ text, c = ' ') ∨ StringLiteral.isContinuation text

theorem PlainGaps.spaces (h : PlainGaps pieces) {text : Text} (hmem : .gap text ∈ pieces)
    (hfeed : '\n' ∉ text) : ∀ c ∈ text, c = ' ' := by
  rcases h text hmem with hspaces | hmark
  · exact hspaces
  · simp only [StringLiteral.isContinuation, Bool.or_eq_true, beq_iff_eq] at hmark
    rcases hmark with rfl | rfl <;> simp at hfeed

open Segmentation LineScan

variable {s next : State} {line : Text}

/-- Unless a line ends in a continuation, its gaps are spaces. -/
theorem PlainGaps.spaces_of_carry (h : PlainGaps pieces)
    (hcut : cutLine s line = .ok (pieces, next)) (hcarry : next.carry ≠ .continuation) :
    ∀ mark, .gap mark ∈ pieces → ∀ c ∈ mark, c = ' ' :=
  fun _ hmem => h.spaces hmem fun hfeed =>
    hcarry (continuation_of_feed_gap (lineCut_of_cutLine hcut) hmem hfeed)

/-- The tokens below a line, as far as they matter for what is written of the line. -/
structure Below (line : Text) (next : State) (p : Position) (behind : List Token) : Prop where
  start_le : ∀ t ∈ behind, p ≤ t.start
  /-- The token of a string that is still open comes next. -/
  string : ∀ d text, next.carry = .string d text → StartsAt p behind
  /-- Something follows a continuation. -/
  continuation : next.carry = .continuation → ∃ t ∈ behind, t.writesNothing = false
  /-- Below a line without its line feed there is at most a supplied end of the statement. -/
  supplied : '\n' ∉ line → needsNewline line → StartsAt p behind
  silent : '\n' ∉ line → needsNewline line = false → ∀ t ∈ behind, t.writesNothing

/-- A line that can be written for another one. It is cut into the same code, and it ends as that
line does. -/
structure Replays (s : State) (line : Text) (pieces : List Piece) (next : State) (line' : Text) :
    Prop where
  cut : ∃ pieces' next', cutLine s line' = .ok (pieces', next') ∧ Stands next next' ∧
    Piece.code pieces' = Piece.code pieces
  whole : Text.Whole line → Text.Whole line'
  unended : '\n' ∉ line → line ≠ [] → '\n' ∉ line' ∧ line' ≠ []
  needs : needsNewline line' = needsNewline line

theorem Replays.refl (h : cutLine s line = .ok (pieces, next)) :
    Replays s line pieces next line :=
  ⟨⟨pieces, next, h, Stands.refl next, rfl⟩, id, fun hfeed hne => ⟨hfeed, hne⟩, rfl⟩

/-- A line comes back as it is in front of a token that is written directly behind it. -/
theorem written_line_of_starts (table : Array Text) (hcut : cutLine s line = .ok (pieces, next))
    (hgaps : PlainGaps pieces) (hcarry : next.carry ≠ .continuation)
    (hstarts : StartsAt (p.past (Piece.cover pieces)) behind) {more : Text}
    (hmore : written (p.past (Piece.cover pieces)) behind = next.carry.text ++ more) :
    written p (Piece.place table p pieces ++ behind) = s.carry.text ++ (line ++ more) := by
  have hcover := cutLine_cover hcut
  rw [written_place_of_starts table (hgaps.spaces_of_carry hcut hcarry) hstarts, hmore,
    ← List.append_assoc, hcover, List.append_assoc]

/-- What is written of a line up to its last lexeme with text. -/
theorem written_line_of_last (table : Array Text) {v : Text}
    (hcut : cutLine s line = .ok (front ++ .lexeme kind text :: back, next))
    (hgaps : PlainGaps (front ++ .lexeme kind text :: back))
    (hwrites : silent (.lexeme kind text) = false) (hback : ∀ piece ∈ back, silent piece)
    (hcover : Piece.cover (front ++ [.lexeme kind text]) = s.carry.text ++ v) :
    written p (Piece.place table p (front ++ .lexeme kind text :: back) ++ behind) =
      s.carry.text ++ (v ++ written ((p.past s.carry.text).past v) behind) := by
  have hspaces : ∀ mark, .gap mark ∈ front → ∀ c ∈ mark, c = ' ' := by
    intro mark hmem
    refine hgaps.spaces (List.mem_append_left _ hmem) fun hfeed => ?_
    obtain ⟨first, more, rfl⟩ := List.append_of_mem hmem
    rw [List.append_assoc, List.cons_append] at hcut
    have hnil := nil_behind_feed_gap (lineCut_of_cutLine hcut) hfeed
    simp at hnil
  rw [written_place_of_last table hspaces hwrites hback, hcover, Position.past_append,
    List.append_assoc]

/-- What is not written of pieces is spaces, if the gaps are. -/
theorem spaces_of_silent (hsilent : ∀ piece ∈ pieces, silent piece)
    (hspaces : ∀ mark, .gap mark ∈ pieces → ∀ c ∈ mark, c = ' ') :
    ∀ c ∈ Piece.cover pieces, c = ' ' := by
  intro c hc
  obtain ⟨piece, hpiece, hc⟩ := List.mem_flatMap.1 hc
  cases piece with
  | gap mark => exact hspaces mark hpiece c hc
  | lexeme kind text =>
    rw [Piece.text, text_of_silent (hsilent _ hpiece)] at hc
    cases hc

/-- A whole line that leaves nothing open comes back as it is. -/
theorem written_line_of_whole (table : Array Text) (hcut : cutLine s line = .ok (pieces, next))
    (hgaps : PlainGaps pieces) (hcarry : next.carry = .nothing) (hline : Text.Whole line)
    {more : Text}
    (hmore : written (p.past (Piece.cover pieces)) behind = next.carry.text ++ more) :
    written p (Piece.place table p pieces ++ behind) = s.carry.text ++ (line ++ more) := by
  have hnone : next.carry.text = [] := by rw [hcarry]; rfl
  have hcovers := cutLine_cover hcut
  rw [hnone, List.append_nil] at hcovers
  have hspaces := hgaps.spaces_of_carry hcut (by rw [hcarry]; exact nofun)
  obtain ⟨body, rfl, -⟩ := hline
  rcases silent_or_exists_last pieces with hall | ⟨front, kind, text, back, rfl, hwrites, hback⟩
  · exfalso
    apply not_feed_of_spaces (spaces_of_silent hall hspaces)
    simp [hcovers]
  · obtain ⟨v, hcover, -⟩ := exists_cover_of_last (lineCut_of_cutLine hcut) hwrites hback
    have hv := line_of_last hcut hcover
    rw [hnone, List.append_nil] at hv
    have hend : Piece.cover back = [] := by
      by_contra hne
      have hends := spaces_of_silent hback fun mark hmem => hspaces mark (by simp [hmem])
      apply not_feed_of_spaces hends
      have hlast := congrArg List.getLast? hv
      rw [List.getLast?_append_of_ne_nil _ hne, List.getLast?_concat] at hlast
      exact List.mem_of_getLast? hlast
    rw [hend, List.append_nil] at hv
    rw [hcovers, Position.past_append, hnone, List.nil_append] at hmore
    rw [written_line_of_last table hcut hgaps hwrites hback hcover, hv, hmore]

/-- A line that writes nothing and leaves no string open begins in no string either. -/
theorem carry_text_of_silent (h : LineCut s line pieces next)
    (hsilent : ∀ piece ∈ pieces, silent piece) (hcarry : next.carry.text = []) :
    s.carry.text = [] := by
  cases h with
  | closes => cases hsilent _ (List.mem_cons_self ..)
  | givesUp => cases hsilent _ (List.mem_cons_self ..)
  | staysOpen d opened hopened =>
    rw [hopened]
    exact (List.append_eq_nil_iff.1 hcarry).1
  | noCode pieces hnothing => rw [hnothing]; rfl
  | code before levels rest hnothing => rw [hnothing]; rfl
  | within hother => rcases hother with hs | ⟨hs, -⟩ <;> rw [hs] <;> rfl

theorem trim_append_spaces (v : Text) {w : Text} (hw : ∀ c ∈ w, c = ' ') :
    Unicode.trim (v ++ w) = Unicode.trim v := by
  have hwhite : ∀ c ∈ w, Unicode.isWhiteSpace c = true := by
    intro c hc
    rw [hw c hc]
    rfl
  have hreverse : ∀ c ∈ w.reverse, Unicode.isWhiteSpace c = true :=
    fun c hc => hwhite c (List.mem_reverse.1 hc)
  simp only [Unicode.trim, List.dropWhile_append]
  split
  · rename_i hnone
    rw [List.isEmpty_iff.1 hnone, List.dropWhile_eq_nil_iff.2 hwhite]
  · rw [List.reverse_append, List.dropWhile_append_of_pos hreverse]

/-- In front of spaces at the end of a line that reads as a comment stands a comment too. -/
theorem needsNewline_of_spaces {v w : Text} (hw : ∀ c ∈ w, c = ' ') (hne : w ≠ [])
    (h : needsNewline (v ++ w) = false) : v ≠ [] ∧ needsNewline v = false := by
  have hlast : (v ++ w).getLast? = some ' ' := by
    rw [List.getLast?_append_of_ne_nil _ hne, List.getLast?_eq_some_getLast hne,
      hw _ (List.getLast_mem hne)]
  have hline : (v ++ w).isEmpty = false :=
    List.isEmpty_eq_false_iff.2 (List.append_ne_nil_of_right_ne_nil _ hne)
  have hcomment : (Unicode.trim v).head? = some '#' := by
    rw [needsNewline, hlast, hline, trim_append_spaces v hw] at h
    simpa [Text.isBreak] using h
  constructor
  · rintro rfl
    cases hcomment
  · rw [needsNewline, hcomment]
    simp

/-- A line that needs no end of the statement can lose the spaces at its end. -/
theorem replays_of_spaces {v : Text}
    (hcut : cutLine s line = .ok (front ++ .lexeme kind text :: back, next))
    (hwrites : silent (.lexeme kind text) = false) (hback : ∀ piece ∈ back, silent piece)
    (hcarry : next.carry = .nothing) (hfeed : '\n' ∉ line) (hneeds : needsNewline line = false)
    (hspaces : ∀ c ∈ Piece.cover back, c = ' ')
    (hcover : Piece.cover (front ++ [.lexeme kind text]) = s.carry.text ++ v) :
    Replays s line (front ++ .lexeme kind text :: back) next v := by
  have hnone : next.carry.text = [] := by rw [hcarry]; rfl
  have hv := line_of_last hcut hcover
  rw [hnone, List.append_nil] at hv
  by_cases hend : Piece.cover back = []
  · rw [hend, List.append_nil] at hv
    subst hv
    exact .refl hcut
  · subst hv
    rw [List.mem_append, not_or] at hfeed
    obtain ⟨hshort, hneeds'⟩ := needsNewline_of_spaces hspaces hend hneeds
    have hcut' := cutLine_of_tail (.ended _ hspaces hend) hcut hcover hwrites hback hfeed.1
    rw [List.append_nil] at hcut'
    refine ⟨⟨_, _, hcut', ⟨rfl, rfl, Or.inl hcarry.symm⟩, ?_⟩, ?_, fun _ _ => ⟨hfeed.1, hshort⟩, ?_⟩
    · exact Piece.code_of_last (gap_behind_last (lineCut_of_cutLine hcut) hwrites hback)
        fun _ hmem => absurd hmem List.not_mem_nil
    · intro hwhole
      rcases List.mem_append.1 hwhole.feed with hmem | hmem
      · exact absurd hmem hfeed.1
      · exact absurd hmem hfeed.2
    · rw [hneeds, hneeds']

/-- The last line without its line feed loses at most the spaces at its end. -/
theorem exists_replay_of_unended (table : Array Text)
    (hcut : cutLine s line = .ok (pieces, next)) (hgaps : PlainGaps pieces)
    (hcarry : next.carry = .nothing) (hfeed : '\n' ∉ line) (hne : line ≠ [])
    (hbelow : Below line next (p.past (Piece.cover pieces)) behind) {more : Text}
    (hmore : written (p.past (Piece.cover pieces)) behind = next.carry.text ++ more) :
    ∃ line', Replays s line pieces next line' ∧
      written p (Piece.place table p pieces ++ behind) = s.carry.text ++ (line' ++ more) := by
  have hcontinues : next.carry ≠ .continuation := by
    rw [hcarry]
    exact nofun
  cases hneeds : needsNewline line with
  | true => exact ⟨line, .refl hcut,
      written_line_of_starts table hcut hgaps hcontinues (hbelow.supplied hfeed hneeds) hmore⟩
  | false =>
    have hnothing : ∀ p, written p behind = [] :=
      fun p => written_of_writesNothing p (hbelow.silent hfeed hneeds)
    have hnone : next.carry.text = [] := by rw [hcarry]; rfl
    rw [hnothing, hnone] at hmore
    obtain rfl : more = [] := hmore.symm
    have hspaces := hgaps.spaces_of_carry hcut hcontinues
    rcases silent_or_exists_last pieces with hall | ⟨front, kind, text, back, rfl, hwrites, hback⟩
    · -- A line of spaces would need the end of a statement.
      have hopen := carry_text_of_silent (lineCut_of_cutLine hcut) hall hnone
      have hline := spaces_of_silent hall hspaces
      have hcovers := cutLine_cover hcut
      rw [hnone, hopen, List.append_nil, List.nil_append] at hcovers
      rw [hcovers] at hline
      exact absurd rfl (needsNewline_of_spaces (v := []) hline hne hneeds).1
    · obtain ⟨v, hcover, -⟩ := exists_cover_of_last (lineCut_of_cutLine hcut) hwrites hback
      have hends : ∀ c ∈ Piece.cover back, c = ' ' :=
        spaces_of_silent hback fun mark hmem => hspaces mark (by simp [hmem])
      refine ⟨v, replays_of_spaces hcut hwrites hback hcarry hfeed hneeds hends hcover, ?_⟩
      rw [written_line_of_last table hcut hgaps hwrites hback hcover, hnothing]

/-- Behind a line, and the string it leaves open, stands the start of the next line. -/
theorem past_line {number : Nat} (hstart : p.past s.carry.text = ⟨number, 0⟩)
    (hcut : cutLine s line = .ok (pieces, next)) (hline : Text.Whole line) :
    (p.past (Piece.cover pieces)).past next.carry.text = ⟨number + 1, 0⟩ := by
  rw [← Position.past_append, cutLine_cover hcut, Position.past_append, hstart]
  have hpast : Position.past ⟨number, 0⟩ [line].flatten = ⟨number + 1, 0⟩ := by
    apply Text.past_flatten
    intro other hother
    rwa [List.mem_singleton.1 hother]
  rwa [List.flatten_singleton] at hpast

theorem needsNewline_of_whole (h : Text.Whole line) : needsNewline line = false := by
  obtain ⟨body, rfl, -⟩ := h
  simp [needsNewline, Text.isBreak]

/-- Behind the last lexeme with text there are only spaces in front of a continuation. -/
theorem exists_mark_of_last {v : Text}
    (hcut : cutLine s line = .ok (front ++ .lexeme kind text :: back, next))
    (hgaps : PlainGaps (front ++ .lexeme kind text :: back))
    (hback : ∀ piece ∈ back, silent piece) (hcarry : next.carry = .continuation)
    (hline : Text.Whole line)
    (hcover : Piece.cover (front ++ [.lexeme kind text]) = s.carry.text ++ v) :
    ∃ spaces mark, line = v ++ (spaces ++ mark) ∧ (∀ c ∈ spaces, c = ' ') ∧
      StringLiteral.isContinuation mark ∧ '\n' ∉ v := by
  have hnone : next.carry.text = [] := by rw [hcarry]; rfl
  have hparts := line_of_last hcut hcover
  rw [hnone, List.append_nil] at hparts
  obtain ⟨first, mark, hpieces, hmark⟩ :=
    exists_continuation_of_lineCut (lineCut_of_cutLine hcut) hcarry
  rcases List.eq_nil_or_concat back with rfl | ⟨more, last, rfl⟩
  · have hlast := congrArg List.getLast? hpieces
    simp at hlast
  · rw [List.concat_eq_append] at *
    have hsplit : (front ++ .lexeme kind text :: more) ++ [last] = first ++ [.gap mark] := by
      rw [← hpieces, List.append_assoc]
      rfl
    obtain rfl := List.singleton_inj.1 (List.append_inj' hsplit rfl).2
    rw [Piece.cover_append, Piece.cover_singleton] at hparts
    change v ++ (Piece.cover more ++ mark) = line at hparts
    have hmarkNe : mark ≠ [] := by
      rintro rfl
      cases hmark
    rw [← hparts, ← List.append_assoc] at hline
    have hfeed := Text.not_feed_of_whole hline hmarkNe
    rw [List.mem_append, not_or] at hfeed
    refine ⟨Piece.cover more, mark, hparts.symm, ?_, hmark, hfeed.1⟩
    apply spaces_of_silent fun piece hmem => hback piece (List.mem_append_left _ hmem)
    intro other hmem
    refine hgaps.spaces (by simp [hmem]) fun hother => ?_
    exact hfeed.2 (List.mem_flatMap.2 ⟨_, hmem, hother⟩)

/-- A line with text that the statement goes on from loses at most the spaces in front of the
continuation and its carriage return. -/
theorem exists_replay_of_continuation (table : Array Text) {number : Nat}
    (hstart : p.past s.carry.text = ⟨number, 0⟩)
    (hcut : cutLine s line = .ok (front ++ .lexeme kind text :: back, next))
    (hgaps : PlainGaps (front ++ .lexeme kind text :: back))
    (hwrites : silent (.lexeme kind text) = false) (hback : ∀ piece ∈ back, silent piece)
    (hcarry : next.carry = .continuation) (hline : Text.Whole line)
    (hbelow : Below line next (p.past (Piece.cover (front ++ .lexeme kind text :: back))) behind) :
    ∃ line', Replays s line (front ++ .lexeme kind text :: back) next line' ∧
      written p (Piece.place table p (front ++ .lexeme kind text :: back) ++ behind) =
        s.carry.text ++ (line' ++
          written (p.past (Piece.cover (front ++ .lexeme kind text :: back))) behind) := by
  have hlineCut := lineCut_of_cutLine hcut
  obtain ⟨v, hcover, hv⟩ := exists_cover_of_last hlineCut hwrites hback
  obtain ⟨spaces, mark, rfl, hspaces, hmark, hfeed⟩ :=
    exists_mark_of_last hcut hgaps hback hcarry hline hcover
  have hcut' := cutLine_of_tail (.joined spaces mark hspaces hmark) hcut hcover hwrites hback hfeed
  have hbody : '\n' ∉ v ++ ['\\'] := List.not_mem_append hfeed (by decide)
  have hwhole : Text.Whole (v ++ ['\\', '\n']) := ⟨v ++ ['\\'], by simp, hbody⟩
  refine ⟨v ++ ['\\', '\n'], ⟨⟨_, _, hcut', ⟨rfl, rfl, Or.inl hcarry.symm⟩, ?_⟩,
    fun _ => hwhole, fun hnot => absurd hline.feed hnot, ?_⟩, ?_⟩
  · refine Piece.code_of_last (gap_behind_last hlineCut hwrites hback) fun piece hmem => ?_
    exact ⟨_, List.mem_singleton.1 hmem⟩
  · rw [needsNewline_of_whole hwhole, needsNewline_of_whole hline]
  · have hnone : next.carry.text = [] := by rw [hcarry]; rfl
    have hnext := past_line hstart hcut hline
    rw [hnone, Position.past_nil] at hnext
    have hcursor : (Position.past ⟨number, 0⟩ v).line < number + 1 := by
      rw [Position.past_of_no_feed _ hfeed]
      exact Nat.lt_succ_self _
    have hover :=
      written_over hcursor (hnext ▸ hbelow.start_le) (hbelow.continuation hcarry)
    -- The text of the line stands in front of the break, so it is not a bare one.
    have hbreak : breaks (0 + v.length) (number + 1 - number) = ['\\', '\n'] := by
      have hlength := List.length_pos_iff.2 (hv hcarry)
      rw [Nat.add_sub_cancel_left, breaks, if_neg (by omega)]
      rfl
    rw [written_line_of_last table hcut hgaps hwrites hback hcover, hstart, hover, hnext,
      Position.past_of_no_feed _ hfeed, hbreak, List.append_assoc]

/-- In brackets a line without text in front of its continuation leaves the state as it is. -/
theorem within_of_silent (h : LineCut s line pieces next) (hsilent : ∀ piece ∈ pieces, silent piece)
    (hdepth : s.depth ≠ 0) (hcarry : next.carry = .continuation) :
    (s.carry = .continuation ∨ s.carry = .nothing) ∧ next = { s with carry := .continuation } ∧
      ∀ piece ∈ pieces, ∃ mark, piece = .gap mark := by
  cases h with
  | closes => cases hsilent _ (List.mem_cons_self ..)
  | givesUp => cases hcarry
  | staysOpen => cases hcarry
  | noCode pieces hnothing hzero => exact absurd hzero hdepth
  | code before levels rest hnothing hzero => exact absurd hzero hdepth
  | within hother =>
    have hgaps := fun piece hmem => gap_of_scan hmem (hsilent piece hmem)
    have hplain : (scan s.depth line).depth = s.depth := by
      rw [scan_depth]
      apply foldl_depthAfter_of_plain
      intro text hmem
      obtain ⟨mark, hgap⟩ := hgaps _ hmem
      cases hgap
    refine ⟨hother.imp_right And.left, ?_, hgaps⟩
    change (scan s.depth line).carry = _ at hcarry
    rw [State.ofScan, hplain, hcarry]

/-- In brackets a continuation without text on its line comes back as a bare line feed. -/
theorem exists_replay_in_brackets (table : Array Text) {number : Nat}
    (hstart : p.past s.carry.text = ⟨number, 0⟩) (hcut : cutLine s line = .ok (pieces, next))
    (hsilent : ∀ piece ∈ pieces, silent piece) (hdepth : s.depth ≠ 0)
    (hcarry : next.carry = .continuation) (hline : Text.Whole line)
    (hbelow : Below line next (p.past (Piece.cover pieces)) behind) :
    ∃ line', Replays s line pieces next line' ∧
      written p (Piece.place table p pieces ++ behind) =
        s.carry.text ++ (line' ++ written (p.past (Piece.cover pieces)) behind) := by
  obtain ⟨hwithin, hnext, hgaps⟩ :=
    within_of_silent (lineCut_of_cutLine hcut) hsilent hdepth hcarry
  have hnone : next.carry.text = [] := by rw [hcarry]; rfl
  have hopen : s.carry.text = [] := by rcases hwithin with hs | hs <;> rw [hs] <;> rfl
  have hbelowStart := past_line hstart hcut hline
  rw [hnone, Position.past_nil] at hbelowStart
  rw [hopen, Position.past_nil] at hstart
  have hwhole : Text.Whole ['\n'] := ⟨[], rfl, List.not_mem_nil⟩
  refine ⟨['\n'], ⟨⟨[.lexeme .lineBreak ['\n']], { s with carry := .nothing }, ?_, ?_, ?_⟩,
    fun _ => hwhole, fun hnot => absurd hline.feed hnot, ?_⟩, ?_⟩
  · have htaken : Taken s.depth '\n' [] _ _ := .feed rfl
    have hscan : scan s.depth ['\n'] = ⟨[.lexeme .lineBreak ['\n']], s.depth, .nothing⟩ := by
      rw [scan_of_piece (front_of_taken htaken), lineBreakKind, if_neg hdepth]
      rfl
    have hcut' : cutLine s ['\n'] = .ok (scanRest s.levels s.depth [] ['\n']) := by
      rcases hwithin with hs | hs
      · simp only [cutLine, hs]
      · simp only [cutLine, hs, if_neg hdepth]
    rw [hcut', scanRest, hscan]
    rfl
  · subst hnext
    exact ⟨rfl, rfl, Or.inr ⟨hdepth, rfl, rfl⟩⟩
  · rw [Piece.code_of_gaps hgaps]
    rfl
  · rw [needsNewline_of_whole hwhole, needsNewline_of_whole hline]
  · have hcursor : p.line < number + 1 := by
      rw [hstart]
      exact Nat.lt_succ_self _
    rw [written_append_of_writesNothing _ _ fun t => silent_token hsilent, hopen, hbelowStart,
      written_over hcursor (hbelowStart ▸ hbelow.start_le) (hbelow.continuation hcarry), hstart,
      Nat.add_sub_cancel_left]
    rfl

/-- What is written for the pieces of a line begins with a line that can stand for it. -/
theorem exists_replay (table : Array Text) {number : Nat}
    (hstart : p.past s.carry.text = ⟨number, 0⟩) (hcut : cutLine s line = .ok (pieces, next))
    (hgaps : PlainGaps pieces)
    (hjoined : next.carry = .continuation → (∀ piece ∈ pieces, silent piece) → s.depth ≠ 0)
    (hline : Text.Whole line ∨ next.carry = .nothing ∧ '\n' ∉ line ∧ line ≠ [])
    (hbelow : Below line next (p.past (Piece.cover pieces)) behind) {more : Text}
    (hmore : written (p.past (Piece.cover pieces)) behind = next.carry.text ++ more) :
    ∃ line', Replays s line pieces next line' ∧
      written p (Piece.place table p pieces ++ behind) = s.carry.text ++ (line' ++ more) := by
  rcases hline with hwhole | ⟨hcarry, hfeed, hne⟩
  · cases hcarry : next.carry with
    | nothing =>
      exact ⟨line, .refl hcut, written_line_of_whole table hcut hgaps hcarry hwhole hmore⟩
    | string d text =>
      have hwritten := written_line_of_starts table hcut hgaps (by rw [hcarry]; exact nofun)
        (hbelow.string d text hcarry) hmore
      exact ⟨line, .refl hcut, hwritten⟩
    | continuation =>
      have hnone : next.carry.text = [] := by rw [hcarry]; rfl
      rw [hnone, List.nil_append] at hmore
      rw [← hmore]
      rcases silent_or_exists_last pieces with hsilent | ⟨front, kind, text, back, rfl, hlast⟩
      · exact exists_replay_in_brackets table hstart hcut hsilent (hjoined hcarry hsilent) hcarry
          hwhole hbelow
      · exact exists_replay_of_continuation table hstart hcut hgaps hlast.1 hlast.2 hcarry hwhole
          hbelow
  · exact exists_replay_of_unended table hcut hgaps hcarry hfeed hne hbelow hmore

end Rebuild

end SourceTokens
