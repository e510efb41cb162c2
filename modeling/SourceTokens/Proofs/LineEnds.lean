import SourceTokens.Proofs.FreshLines
import SourceTokens.Proofs.LineTails
import SourceTokens.Proofs.NoiseLines
import SourceTokens.Proofs.RoundTrip

/-!
Lines seen from their ends. What a line writes stops with its last lexeme that has text; behind it
there are only gaps. If the end of the line is written in another way, the line is cut alike up to
that lexeme. In brackets a line may also lose the continuation in front of it, which says nothing
there.
-/

namespace SourceTokens

/-- A piece that no other one follows in what stands in front stands at the end of it or behind. -/
theorem Piece.exists_behind {front back before after : List Piece} {piece : Piece}
    (hpieces : front ++ piece :: back = before ++ after)
    (hlast : ∀ more, before = front ++ piece :: more → more = []) :
    ∃ behind, front ++ [piece] = before ++ behind ∧ after = behind ++ back := by
  have hsplit : (front ++ [piece]) ++ back = before ++ after := by
    rw [← hpieces, List.append_assoc]
    rfl
  rcases List.append_eq_append_iff.1 hsplit with ⟨more, hbefore, hback⟩ | ⟨behind, hfront, hafter⟩
  · rw [List.append_assoc] at hbefore
    obtain rfl := hlast more hbefore
    exact ⟨[], by rw [hbefore, List.append_nil]; rfl, hback.symm⟩
  · exact ⟨behind, hfront, hafter⟩

namespace LineScan

/-- An end of a line that can be written in another way opens and closes no bracket. -/
theorem scan_tail_depth {w w' : Text} (hw : Tail w w') (depth : Nat) :
    (scan depth w).depth = depth := by
  have hmark : ∀ mark, StringLiteral.isContinuation mark → (scan depth mark).depth = depth := by
    intro mark hmark
    simp only [StringLiteral.isContinuation, Bool.or_eq_true, beq_iff_eq] at hmark
    rcases hmark with rfl | rfl <;> rfl
  cases hw with
  | feed =>
    have htaken : Taken depth '\n' [] _ _ := .feed rfl
    rw [scan_of_piece (front_of_taken htaken), lineBreakKind]
    split <;> rfl
  | joined spaces mark hspaces hcontinuation =>
    by_cases hne : spaces = []
    · rw [hne]
      exact hmark mark hcontinuation
    · obtain ⟨rest, rfl⟩ : ∃ rest, mark = '\\' :: rest := by
        simp only [StringLiteral.isContinuation, Bool.or_eq_true, beq_iff_eq] at hcontinuation
        rcases hcontinuation with rfl | rfl
        · exact ⟨_, rfl⟩
        · exact ⟨_, rfl⟩
      have hblanks : spaces.all Text.isBlank := by
        apply List.all_eq_true.2
        intro c hc
        rw [hspaces c hc]
        rfl
      rw [scan_blanks hblanks rest rfl hne]
      exact hmark _ hcontinuation
  | ended _ hspaces hne =>
    obtain ⟨c, rest, rfl⟩ := List.exists_cons_of_ne_nil hne
    have hblank : ∀ d ∈ c :: rest, Text.isBlank d := by
      intro d hd
      rw [hspaces d hd]
      rfl
    have htaken : Taken depth c rest _ _ := .blanks (hblank c (List.mem_cons_self ..))
    rw [scan_of_piece (front_of_taken htaken), List.dropWhile_eq_nil_iff.2 hblank]
    rfl

/-- Nothing stands behind a gap that holds a line feed. -/
theorem nil_behind_feed {mark : Text} (hfeed : '\n' ∈ mark) {depth : Nat} {text : Text}
    {front back : List Piece} (h : (scan depth text).pieces = front ++ .gap mark :: back) :
    back = [] := by
  induction depth, text using scan_induction generalizing front with
  | nil => simp at h
  | piece depth c rest piece after htaken hcover ih =>
    cases front with
    | nil =>
      obtain ⟨rfl, -⟩ := List.cons.inj h
      cases htaken with
      | blanks hc => exact absurd hfeed (Text.not_feed_of_blanks List.all_takeWhile)
    | cons first front => exact ih (List.cons.inj h).2
  | continuation =>
    have hlength := congrArg List.length h
    simp only [List.length_append, List.length_cons, List.length_nil] at hlength
    exact List.length_eq_zero_iff.1 (by omega)
  | unclosed => simp at h

/-- What a scan cuts without text to be written is a gap. -/
theorem gap_of_scan {depth : Nat} {text : Text} {piece : Piece}
    (hmem : piece ∈ (scan depth text).pieces) (hsilent : silent piece) :
    ∃ mark, piece = .gap mark := by
  cases piece with
  | gap mark => exact ⟨mark, rfl⟩
  | lexeme kind covered =>
    exact absurd (text_of_silent hsilent) (scan_ne_nil depth text _ hmem)

end LineScan

namespace Indentation

/-- The start of a line with code does not depend on that code. -/
theorem code_of_other {levels next : List Nat} {line rest other : Text} {pieces : List Piece}
    {c : Char} (h : LineStart levels line (.code pieces next rest)) (hc : BeginsCode c) :
    LineStart levels (Piece.cover pieces ++ c :: other) (.code pieces next (c :: other)) := by
  cases h with
  | opens blanks _ _ hblanks _ _ hwidth =>
    rw [Piece.cover_singleton]
    exact .opens blanks c other hblanks rfl hc hwidth
  | closes blanks _ _ hblanks _ _ hwidth hopen =>
    rw [Piece.cover_cons, cover_dedents, List.append_nil]
    exact .closes blanks c other hblanks rfl hc hwidth hopen
  | stays blanks _ _ hblanks _ _ hwidth =>
    rw [Piece.cover_singleton]
    exact .stays blanks c other hblanks rfl hc hwidth

/-- A lexeme that is written at the start of a line with code is an indent and not empty. -/
theorem ne_nil_of_code {levels next : List Nat} {line rest text : Text} {pieces : List Piece}
    {kind : TokenKind} (h : LineStart levels line (.code pieces next rest))
    (hmem : .lexeme kind text ∈ pieces) (hwrites : silent (.lexeme kind text) = false) :
    text ≠ [] := by
  cases h with
  | opens blanks c rest hblanks hline hc hwidth =>
    cases List.mem_singleton.1 hmem
    rintro rfl
    exact Nat.not_lt_zero _ hwidth
  | closes =>
    rcases List.mem_cons.1 hmem with hgap | hmem
    · cases hgap
    · obtain ⟨_, -, hdedent⟩ := List.mem_map.1 hmem
      cases hdedent
      cases hwrites
  | stays => cases List.mem_singleton.1 hmem

end Indentation

namespace Segmentation

open Indentation LineScan StringLiteral

/-- A line without code ends in a lexeme, or it is blank. -/
theorem back_of_noCode {levels : List Nat} {line : Text} {front back : List Piece}
    {kind : TokenKind} {text : Text}
    (h : LineStart levels line (.noCode (front ++ .lexeme kind text :: back)))
    (hback : ∀ piece ∈ back, silent piece) : back = [] := by
  generalize hpieces : front ++ .lexeme kind text :: back = pieces at h
  rcases List.eq_nil_or_concat back with rfl | ⟨body, last, rfl⟩
  · rfl
  · exfalso
    have hlast : silent last := hback last (by simp)
    rw [List.concat_eq_append, ← List.cons_append, ← List.append_assoc] at hpieces
    have hget := congrArg List.getLast? hpieces
    rw [List.getLast?_concat] at hget
    cases h with
    | blank =>
      have hlength := congrArg List.length hpieces
      simp only [List.length_append, List.length_cons, List.length_nil] at hlength
      omega
    | comment =>
      cases hget
      cases hlast
    | lineBreak =>
      cases hget
      cases hlast

/-- A lexeme with text at the start of a line with code is the last one there. -/
theorem writes_last_of_code {levels next : List Nat} {line rest text : Text}
    {front back : List Piece} {kind : TokenKind}
    (h : LineStart levels line (.code (front ++ .lexeme kind text :: back) next rest))
    (hwrites : silent (.lexeme kind text) = false) : back = [] := by
  have hmem : .lexeme kind text ∈ front ++ .lexeme kind text :: back := by simp
  generalize hpieces : front ++ .lexeme kind text :: back = pieces at h hmem
  cases h with
  | opens =>
    have hlength := congrArg List.length hpieces
    simp only [List.length_append, List.length_cons, List.length_nil] at hlength
    exact List.length_eq_zero_iff.1 (by omega)
  | closes =>
    rcases List.mem_cons.1 hmem with hgap | hmem
    · cases hgap
    · obtain ⟨_, -, hdedent⟩ := List.mem_map.1 hmem
      cases hdedent
      cases hwrites
  | stays => cases List.mem_singleton.1 hmem

theorem cover_of_code {levels next : List Nat} {line rest : Text} {pieces : List Piece}
    (h : LineStart levels line (.code pieces next rest)) : Piece.cover pieces ++ rest = line := by
  have hcovers := start_covers levels line
  rw [start_eq_of_lineStart h] at hcovers
  exact hcovers

/-- Code in front of an end of a line is code with the new end. -/
theorem begins_of_tail {levels next : List Nat} {line text w w' : Text} {pieces : List Piece}
    (hw : Tail w w') (h : LineStart levels line (.code pieces next (text ++ w))) :
    ∃ c rest, text ++ w' = c :: rest ∧ BeginsCode c := by
  have hbegins : ∃ c rest, text ++ w = c :: rest ∧ BeginsCode c := by
    generalize text ++ w = code at h
    cases h with
    | opens blanks c rest hblanks hline hc => exact ⟨c, rest, rfl, hc⟩
    | closes blanks c rest hblanks hline hc => exact ⟨c, rest, rfl, hc⟩
    | stays blanks c rest hblanks hline hc => exact ⟨c, rest, rfl, hc⟩
  obtain ⟨c, rest, hcode, hc⟩ := hbegins
  cases text with
  | cons d text =>
    obtain ⟨rfl, -⟩ := List.cons.inj hcode
    exact ⟨d, text ++ w', rfl, hc⟩
  | nil =>
    cases hw with
    | feed =>
      obtain ⟨rfl, -⟩ := List.cons.inj hcode
      cases hc.2.2
    | joined spaces mark hspaces hmark => exact ⟨'\\', ['\n'], rfl, by decide, by decide, rfl⟩
    | ended _ hspaces hne =>
      change w = c :: rest at hcode
      rw [hcode] at hspaces
      obtain rfl := hspaces c (List.mem_cons_self ..)
      cases hc.1

/-- What is cut of a line in front of its scan, and the blocks that are open from then on. -/
inductive Lead (s : State) : Text → List Piece → List Nat → Text → Prop
  | closes (d : Delimiter) (opened body rest : Text) (hcarry : s.carry = .string d opened)
      (hsplit : splitAtCloser d (body ++ rest) = some (body, rest)) :
      Lead s (body ++ rest) [.lexeme .string (opened ++ body)] s.levels rest
  | code (line : Text) (before : List Piece) (levels : List Nat) (rest : Text)
      (hcarry : s.carry = .nothing) (hdepth : s.depth = 0)
      (hstart : LineStart s.levels line (.code before levels rest)) : Lead s line before levels rest
  | within (line : Text) (hcarry : s.carry = .continuation ∨ s.carry = .nothing ∧ s.depth ≠ 0) :
      Lead s line [] s.levels line

namespace Lead

variable {s : State} {line rest : Text} {before : List Piece} {levels : List Nat}

theorem cutLine_eq (h : Lead s line before levels rest) :
    cutLine s line = .ok (scanRest levels s.depth before rest) := by
  cases h with
  | closes d opened body rest hcarry hsplit => simp only [cutLine, hcarry, cutInString, hsplit]
  | code _ before levels rest hcarry hdepth hstart =>
    simp only [cutLine, hcarry, hdepth, if_true, start_eq_of_lineStart hstart]
  | within _ hcarry =>
    rcases hcarry with hs | ⟨hs, hdepth⟩
    · simp only [cutLine, hs]
    · simp only [cutLine, hs, if_neg hdepth]

/-- A line that ends in another way begins alike. -/
theorem of_tail {w w' text : Text} (hw : Tail w w') (h : Lead s line before levels (text ++ w)) :
    ∃ begun, line = begun ++ (text ++ w) ∧
      Lead s (begun ++ (text ++ w')) before levels (text ++ w') := by
  generalize hrest : text ++ w = rest at h
  cases h with
  | closes d opened body rest hcarry hsplit =>
    exact ⟨body, rfl, .closes d opened body _ hcarry (splitAtCloser_of_some hsplit _)⟩
  | code _ before levels rest hcarry hdepth hstart =>
    subst hrest
    obtain ⟨c, other, hother, hc⟩ := begins_of_tail hw hstart
    refine ⟨Piece.cover before, (cover_of_code hstart).symm, .code _ _ _ _ hcarry hdepth ?_⟩
    rw [hother]
    exact code_of_other hstart hc
  | within _ hcarry => exact ⟨[], rfl, .within _ hcarry⟩

/-- In front of the scan a lexeme with text is the last one, and not empty. -/
theorem last (h : Lead s line before levels rest) {front more : List Piece} {kind : TokenKind}
    {text : Text} (hbefore : before = front ++ .lexeme kind text :: more)
    (hwrites : silent (.lexeme kind text) = false) : more = [] ∧ text ≠ [] := by
  cases h with
  | closes d opened body rest hcarry hsplit =>
    cases front with
    | nil =>
      cases hbefore
      exact ⟨rfl, List.append_ne_nil_of_right_ne_nil _ (splitAtCloser_ne_nil hsplit)⟩
    | cons first front => simp at hbefore
  | code _ before levels rest hcarry hdepth hstart =>
    have hmem : .lexeme kind text ∈ before := by simp [hbefore]
    subst hbefore
    exact ⟨writes_last_of_code hstart hwrites, ne_nil_of_code hstart hmem hwrites⟩
  | within => simp at hbefore

/-- In front of the scan stands the string that was open, with some more text, or none was open. -/
theorem exists_cover (h : Lead s line before levels rest) :
    s.carry.text = [] ∨ ∃ body, Piece.cover before = s.carry.text ++ body ∧ body ≠ [] := by
  cases h with
  | closes d opened body rest hcarry hsplit =>
    refine Or.inr ⟨body, ?_, splitAtCloser_ne_nil hsplit⟩
    rw [hcarry]
    exact Piece.cover_singleton _
  | code _ before levels rest hcarry => exact Or.inl (by rw [hcarry]; rfl)
  | within _ hcarry =>
    left
    rcases hcarry with hs | ⟨hs, -⟩ <;> rw [hs] <;> rfl

end Lead

section Last

variable {s next : State} {line text : Text} {front back : List Piece} {kind : TokenKind}

/-- The last lexeme of a line with text stands in front of the scan of the line or in that scan, or
it ends the line. -/
theorem lead_or_ends (h : LineCut s line (front ++ .lexeme kind text :: back) next)
    (hwrites : silent (.lexeme kind text) = false) (hback : ∀ piece ∈ back, silent piece) :
    (∃ before levels rest behind, Lead s line before levels rest ∧
      front ++ [.lexeme kind text] = before ++ behind ∧
      (scan s.depth rest).pieces = behind ++ back ∧
      next = .ofScan levels (scan s.depth rest)) ∨
    back = [] ∧ next.carry = .nothing ∧
      ∃ v, Piece.cover (front ++ [.lexeme kind text]) = s.carry.text ++ v := by
  have hlead : ∀ before levels rest, Lead s line before levels rest →
      front ++ .lexeme kind text :: back = before ++ (scan s.depth rest).pieces →
      next = .ofScan levels (scan s.depth rest) →
      ∃ before levels rest behind, Lead s line before levels rest ∧
        front ++ [.lexeme kind text] = before ++ behind ∧
        (scan s.depth rest).pieces = behind ++ back ∧
        next = .ofScan levels (scan s.depth rest) := by
    intro before levels rest hlead hpieces hnext
    obtain ⟨behind, hfront, hscan⟩ :=
      Piece.exists_behind hpieces fun more hmore => (hlead.last hmore hwrites).1
    exact ⟨before, levels, rest, behind, hlead, hfront, hscan, hnext⟩
  generalize hpieces : front ++ .lexeme kind text :: back = pieces at h
  cases h with
  | closes d opened body rest hcarry hsplit =>
    have hline := splitAtCloser_append hsplit
    subst hline
    exact Or.inl (hlead _ _ _ (.closes d opened body rest hcarry hsplit) hpieces rfl)
  | givesUp d opened hcarry =>
    cases front with
    | nil =>
      cases hpieces
      refine Or.inr ⟨rfl, rfl, line, ?_⟩
      rw [hcarry]
      exact Piece.cover_singleton _
    | cons first front => simp at hpieces
  | staysOpen => simp at hpieces
  | noCode pieces hcarry hdepth hstart =>
    subst hpieces
    exact Or.inr ⟨back_of_noCode hstart hback, hcarry, _, by rw [hcarry]; rfl⟩
  | code before levels rest hcarry hdepth hstart =>
    exact Or.inl (hlead _ _ _ (.code line before levels rest hcarry hdepth hstart) hpieces rfl)
  | within hcarry => exact Or.inl (hlead _ _ _ (.within line hcarry) hpieces rfl)

/-- What a line adds to an open string up to its last lexeme with text. -/
theorem exists_cover_of_last (h : LineCut s line (front ++ .lexeme kind text :: back) next)
    (hwrites : silent (.lexeme kind text) = false) (hback : ∀ piece ∈ back, silent piece) :
    ∃ v, Piece.cover (front ++ [.lexeme kind text]) = s.carry.text ++ v ∧
      (next.carry = .continuation → v ≠ []) := by
  rcases lead_or_ends h hwrites hback with
    ⟨before, levels, rest, behind, hlead, hfront, hscan, -⟩ | ⟨-, hcarry, v, hv⟩
  · rcases hlead.exists_cover with hnone | ⟨body, hbody, hne⟩
    · refine ⟨_, by rw [hnone, List.nil_append], fun _ => ?_⟩
      have htext : text ≠ [] := by
        rcases List.eq_nil_or_concat behind with rfl | ⟨more, piece, rfl⟩
        · rw [List.append_nil] at hfront
          exact (hlead.last hfront.symm hwrites).2
        · rw [List.concat_eq_append, ← List.append_assoc] at hfront
          obtain rfl := List.singleton_inj.1 (List.append_inj' hfront rfl).2
          have hmem : .lexeme kind text ∈ (scan s.depth rest).pieces := by simp [hscan]
          exact scan_ne_nil s.depth rest _ hmem
      rw [Piece.cover_append, Piece.cover_singleton]
      exact List.append_ne_nil_of_right_ne_nil _ htext
    · refine ⟨body ++ Piece.cover behind, ?_, fun _ => List.append_ne_nil_of_left_ne_nil hne _⟩
      rw [hfront, Piece.cover_append, hbody, List.append_assoc]
  · refine ⟨v, hv, ?_⟩
    rw [hcarry]
    intro hcontinuation
    cases hcontinuation

/-- Behind the last lexeme with text there are gaps only. -/
theorem gap_behind_last (h : LineCut s line (front ++ .lexeme kind text :: back) next)
    (hwrites : silent (.lexeme kind text) = false) (hback : ∀ piece ∈ back, silent piece) :
    ∀ piece ∈ back, ∃ mark, piece = .gap mark := by
  intro piece hmem
  rcases lead_or_ends h hwrites hback with
    ⟨before, levels, rest, behind, hlead, hfront, hscan, -⟩ | ⟨rfl, -⟩
  · have hscanned : piece ∈ (scan s.depth rest).pieces := by
      rw [hscan]
      exact List.mem_append_right _ hmem
    exact gap_of_scan hscanned (hback piece hmem)
  · cases hmem

/-- A line falls into what stands before the end of its last lexeme with text and the rest. -/
theorem line_of_last {v : Text}
    (hcut : cutLine s line = .ok (front ++ .lexeme kind text :: back, next))
    (hcover : Piece.cover (front ++ [.lexeme kind text]) = s.carry.text ++ v) :
    v ++ (Piece.cover back ++ next.carry.text) = line := by
  have hpieces := cutLine_cover hcut
  have hsplit : front ++ .lexeme kind text :: back = (front ++ [.lexeme kind text]) ++ back := by
    rw [List.append_assoc]
    rfl
  rw [hsplit, Piece.cover_append, hcover, List.append_assoc, List.append_assoc] at hpieces
  exact List.append_cancel_left hpieces

/-- What goes on with a scan goes on alike in front of a new end of the line. -/
theorem scanRest_of_tail {w w' : Text} (hw : Tail w w') (levels : List Nat) (depth : Nat)
    (before : List Piece) {behind : List Piece}
    (hscan : (scan depth (Piece.cover behind ++ w)).pieces = behind ++ back)
    (hfeed : '\n' ∉ Piece.cover behind) :
    scanRest levels depth before (Piece.cover behind ++ w') =
      scanRest levels (scan depth (Piece.cover behind ++ w)).depth (before ++ behind) w' := by
  obtain ⟨hold, hnew⟩ := scan_of_tail hw hfeed rfl hscan
  simp only [scanRest, State.ofScan, hold, hnew, Result.behind, scan_tail_depth hw,
    List.append_assoc]

/-- A line is cut alike up to its last lexeme with text when its end is written in another way. -/
theorem cutLine_of_tail {w w' v : Text} (hw : Tail w w')
    (h : cutLine s (v ++ w) = .ok (front ++ .lexeme kind text :: back, next))
    (hcover : Piece.cover (front ++ [.lexeme kind text]) = s.carry.text ++ v)
    (hwrites : silent (.lexeme kind text) = false) (hback : ∀ piece ∈ back, silent piece)
    (hfeed : '\n' ∉ v) :
    cutLine s (v ++ w') =
      .ok (scanRest next.levels next.depth (front ++ [.lexeme kind text]) w') := by
  have hend := List.append_cancel_left (line_of_last h hcover)
  rcases lead_or_ends (lineCut_of_cutLine h) hwrites hback with
    ⟨before, levels, rest, behind, hlead, hfront, hscan, rfl⟩ | ⟨rfl, hcarry, -⟩
  · have hrest : rest = Piece.cover behind ++ w := by
      have hcovers := scan_cover s.depth rest
      rw [hscan, Piece.cover_append, List.append_assoc] at hcovers
      rw [← hend]
      exact hcovers.symm
    subst hrest
    obtain ⟨begun, hline, hlead'⟩ := hlead.of_tail hw
    have hv : v = begun ++ Piece.cover behind := by
      rw [← List.append_assoc] at hline
      exact List.append_cancel_right hline
    subst hv
    have hbehind : '\n' ∉ Piece.cover behind := fun hmem => hfeed (List.mem_append_right _ hmem)
    rw [List.append_assoc, hlead'.cutLine_eq, scanRest_of_tail hw _ _ _ hscan hbehind, hfront]
    rfl
  · -- The lexeme would reach up to the end of the line.
    rw [hcarry] at hend
    exact absurd hend.symm hw.left_ne_nil

end Last

/-- Whether a state can stand for another one. It is the same state, or in brackets a continuation
is missing, which says nothing there. -/
structure Stands (s s' : State) : Prop where
  levels_eq : s'.levels = s.levels
  depth_eq : s'.depth = s.depth
  carry : s'.carry = s.carry ∨ s.depth ≠ 0 ∧ s.carry = .continuation ∧ s'.carry = .nothing

theorem Stands.refl (s : State) : Stands s s := ⟨rfl, rfl, Or.inl rfl⟩

/-- A state that stands for another one cuts every line alike. -/
theorem Stands.cutLine_eq {s s' : State} (h : Stands s s') (line : Text) :
    cutLine s' line = cutLine s line := by
  obtain ⟨levels, depth, carry⟩ := s
  obtain ⟨levels', depth', carry'⟩ := s'
  obtain ⟨hlevels, hdepth, hcarry⟩ := h
  simp only at hlevels hdepth hcarry
  subst hlevels hdepth
  rcases hcarry with rfl | ⟨hdepth, rfl, rfl⟩
  · rfl
  · simp only [cutLine, if_neg hdepth]

/-- Nothing stands behind a gap that holds a line feed. -/
theorem nil_behind_feed_gap {s next : State} {line mark : Text} {front back : List Piece}
    (h : LineCut s line (front ++ .gap mark :: back) next) (hfeed : '\n' ∈ mark) : back = [] := by
  have hscan : ∀ (before : List Piece) (depth : Nat) (rest : Text), .gap mark ∉ before →
      front ++ .gap mark :: back = before ++ (scan depth rest).pieces → back = [] := by
    intro before depth rest hbefore hpieces
    rcases List.append_eq_append_iff.1 hpieces with ⟨middle, rfl, hmiddle⟩ | ⟨middle, rfl, hmiddle⟩
    · cases middle with
      | nil =>
        have hscan : (scan depth rest).pieces = [] ++ .gap mark :: back := hmiddle.symm
        exact nil_behind_feed hfeed hscan
      | cons piece middle =>
        obtain ⟨rfl, -⟩ := List.cons.inj hmiddle
        exact absurd (List.mem_append_right _ (List.mem_cons_self ..)) hbefore
    · exact nil_behind_feed hfeed hmiddle
  have hmem : .gap mark ∈ front ++ .gap mark :: back := by simp
  generalize hpieces : front ++ .gap mark :: back = pieces at h hmem
  cases h with
  | closes d opened body rest => exact hscan [_] _ rest (by simp) hpieces
  | givesUp => cases List.mem_singleton.1 hmem
  | staysOpen => cases hmem
  | noCode pieces hcarry hdepth hstart =>
    exact absurd hfeed (Indentation.not_feed_of_noCode hstart hmem)
  | code before levels rest hcarry hdepth hstart =>
    refine hscan before _ rest ?_ hpieces
    intro hbefore
    exact Indentation.not_feed_of_code hstart (List.mem_flatMap.2 ⟨_, hbefore, hfeed⟩)
  | within => exact hscan [] _ line List.not_mem_nil hpieces

end Segmentation

end SourceTokens
