import SourceTokens.Proofs.Brackets
import SourceTokens.Proofs.Completion
import SourceTokens.Proofs.Scrubbing

/-!
Lines that hold no code, put between two lines of a source. If neither a string nor a continuation
is open there, the state behind such a line is the state before it, in brackets and outside. So the
tokens below only move down by one line, and what the line itself adds is scrubbed.
-/

namespace SourceTokens

/-- A line without code: blanks, perhaps a comment, and the terminator. -/
structure NoiseLine where
  blanks : Text
  comment : Text
  terminator : Text
  isBlank_of_mem : blanks.all Text.isBlank
  comment_eq : comment = [] ∨ ∃ text, comment = '#' :: text
  not_break_of_mem : ∀ c ∈ comment, Text.isBreak c = false
  terminator_eq : terminator = ['\n'] ∨ terminator = ['\r', '\n']

namespace NoiseLine

def text (c : NoiseLine) : Text := c.blanks ++ (c.comment ++ c.terminator)

def lexemes (c : NoiseLine) : List Piece :=
  (if c.comment = [] then [] else [.lexeme .comment c.comment]) ++
    [.lexeme .lineBreak c.terminator]

def tokens (c : NoiseLine) (number : Nat) : List Token :=
  let stop := c.blanks.length + c.comment.length
  (if c.comment = [] then []
    else [{ kind := .comment, value := c.comment, start := ⟨number, c.blanks.length⟩,
            stop := ⟨number, stop⟩, line := some c.text }]) ++
    [{ kind := .lineBreak, value := c.terminator, start := ⟨number, stop⟩,
       stop := ⟨number, stop + c.terminator.length⟩, line := some c.text }]

variable (c : NoiseLine)

theorem not_feed_of_comment : '\n' ∉ c.comment := by
  intro hfeed
  cases c.not_break_of_mem _ hfeed

/-- The line is whole and has one line feed only. -/
theorem exists_body : ∃ body, c.text = body ++ ['\n'] ∧ '\n' ∉ body := by
  have hblanks := Text.not_feed_of_blanks c.isBlank_of_mem
  have hcomment := c.not_feed_of_comment
  rcases c.terminator_eq with hterminator | hterminator
  · refine ⟨c.blanks ++ c.comment, ?_, List.not_mem_append hblanks hcomment⟩
    rw [text, hterminator, List.append_assoc]
  · refine ⟨c.blanks ++ (c.comment ++ ['\r']), ?_, ?_⟩
    · rw [text, hterminator]
      simp only [List.append_assoc, List.cons_append, List.nil_append]
    · exact List.not_mem_append hblanks (List.not_mem_append hcomment (by decide))

theorem lines_text : Text.lines c.text = [c.text] := by
  obtain ⟨body, htext, hfeed⟩ := c.exists_body
  rw [htext, Text.lines_of_feed hfeed]

theorem getLast?_text : c.text.getLast? = some '\n' := by
  obtain ⟨body, htext, -⟩ := c.exists_body
  rw [htext, List.getLast?_concat]

/-- The line behind the blanks begins with a number sign or a break. -/
theorem exists_rest :
    (∃ text, c.comment = '#' :: text) ∨ c.comment = [] ∧
      ∃ first rest, c.terminator = first :: rest ∧ Text.isBreak first := by
  rcases c.comment_eq with hnone | hcomment
  · right
    rcases c.terminator_eq with hterminator | hterminator
    · exact ⟨hnone, '\n', [], hterminator, rfl⟩
    · exact ⟨hnone, '\r', ['\n'], hterminator, rfl⟩
  · exact Or.inl hcomment

end NoiseLine

namespace Text

/-- What stands before the breaks at the end of a text stays. -/
theorem dropBreaks_append {front breaks : Text} (hfront : ∀ c ∈ front, isBreak c = false)
    (hbreaks : ∀ c ∈ breaks, isBreak c) : dropBreaks (front ++ breaks) = front := by
  have hbreaks' : ∀ c ∈ breaks.reverse, isBreak c :=
    fun c hc => hbreaks c (List.mem_reverse.1 hc)
  have hfront' : front.reverse.dropWhile isBreak = front.reverse := by
    apply List.dropWhile_eq_self_iff.2
    intro hpos
    rw [Bool.not_eq_true]
    exact hfront _ (List.mem_reverse.1 (List.getElem_mem hpos))
  rw [dropBreaks, List.reverse_append, List.dropWhile_append_of_pos hbreaks', hfront',
    List.reverse_reverse]

theorem isBreak_of_terminator {terminator : Text}
    (h : terminator = ['\n'] ∨ terminator = ['\r', '\n']) : ∀ c ∈ terminator, isBreak c := by
  apply List.all_eq_true.1
  rcases h with rfl | rfl <;> rfl

/-- A source that ends on a whole line consists of whole lines. -/
theorem whole_of_feed {source : Text} (h : source = [] ∨ source.getLast? = some '\n') :
    ∀ line ∈ lines source, ∃ body, line = body ++ ['\n'] ∧ '\n' ∉ body := by
  obtain ⟨full, tail, hlines, hfull, htail⟩ := exists_lines source
  rcases htail with rfl | ⟨line, rfl, -, hline⟩
  · rwa [hlines, List.append_nil]
  · exfalso
    have hlast := getLast?_getLastD_lines source
    rw [hlines, List.getLastD_concat] at hlast
    rcases h with rfl | h
    · simp [lines] at hlines
    · rw [h] at hlast
      exact hline (List.mem_of_getLast? hlast)

end Text

namespace Position

/-- A text that goes on over no line feed stops on its own line. -/
theorem stop_of_no_feed (p : Position) {text : Text} (h : '\n' ∉ text.dropLast) :
    p.stop text = ⟨p.line, p.col + text.length⟩ := by
  rcases List.eq_nil_or_concat text with rfl | ⟨front, c, rfl⟩
  · rfl
  · rw [List.concat_eq_append, List.dropLast_concat] at h
    rw [List.concat_eq_append, stop_concat, past_of_no_feed p h, List.length_append,
      List.length_singleton, Nat.add_assoc]

end Position

namespace LineScan

/-- In brackets a terminator is a line break that ends no statement. -/
theorem scan_terminator {depth : Nat} {terminator : Text} (hdepth : depth ≠ 0)
    (h : terminator = ['\n'] ∨ terminator = ['\r', '\n']) :
    scan depth terminator = ⟨[.lexeme .lineBreak terminator], depth, .nothing⟩ := by
  have hkind : lineBreakKind depth = .lineBreak := if_neg hdepth
  rcases h with rfl | rfl
  · rw [scan_of_piece (front_of_taken (.feed rfl)), hkind]
    rfl
  · rw [scan_of_piece (front_of_taken (.returnFeed [] rfl rfl)), hkind]
    rfl

/-- A comment in brackets reaches up to the terminator of its line. -/
theorem scan_comment {depth : Nat} {text terminator : Text} (hdepth : depth ≠ 0)
    (htext : ∀ c ∈ '#' :: text, Text.isBreak c = false)
    (h : terminator = ['\n'] ∨ terminator = ['\r', '\n']) :
    scan depth ('#' :: (text ++ terminator)) =
      ⟨[.lexeme .comment ('#' :: text), .lexeme .lineBreak terminator], depth, .nothing⟩ := by
  have hmember : ∀ c ∈ '#' :: text, (!Text.isBreak c) = true := by
    intro c hc
    rw [htext c hc]
    rfl
  have hstop : terminator.takeWhile (fun c => !Text.isBreak c) = [] ∧
      terminator.dropWhile (fun c => !Text.isBreak c) = terminator := by
    rcases h with rfl | rfl <;> exact ⟨rfl, rfl⟩
  have htaken : Taken depth '#' (text ++ terminator) _ _ := .comment rfl
  have hfront := front_of_taken htaken
  rw [← List.cons_append, List.takeWhile_append_of_pos hmember,
    List.dropWhile_append_of_pos hmember, hstop.1, hstop.2, List.append_nil] at hfront
  rw [scan_of_piece hfront]
  change (scan depth terminator).cons _ = _
  rw [scan_terminator hdepth h]
  rfl

theorem scan_blanks {depth : Nat} {blanks : Text} (hblanks : blanks.all Text.isBlank) {c : Char}
    (rest : Text) (hc : Text.isBlank c = false) (hne : blanks ≠ []) :
    scan depth (blanks ++ c :: rest) = (scan depth (c :: rest)).cons (.gap blanks) := by
  obtain ⟨htake, hdrop⟩ := Indentation.split_blanks rest hblanks hc
  obtain ⟨first, more, rfl⟩ := List.exists_cons_of_ne_nil hne
  have hfirst : Text.isBlank first := List.all_eq_true.1 hblanks first (List.mem_cons_self ..)
  have htaken : Taken depth first (more ++ c :: rest) _ _ := .blanks hfirst
  have hfront := front_of_taken htaken
  rw [← List.cons_append, htake, hdrop] at hfront
  exact scan_of_piece hfront

end LineScan

namespace Segmentation

open LineScan Indentation

/-- A line without code, at the start of a statement. -/
theorem lineStart_noise (c : NoiseLine) (levels : List Nat) :
    LineStart levels c.text (.noCode (.gap c.blanks :: c.lexemes)) := by
  rcases c.exists_rest with ⟨text, hcomment⟩ | ⟨hnone, first, rest, hterminator, hbreak⟩
  · have hstart : LineStart levels c.text _ :=
      .comment c.blanks (text ++ c.terminator) c.isBlank_of_mem
        (by rw [NoiseLine.text, hcomment, List.cons_append])
    have hdrop := Text.dropBreaks_append c.not_break_of_mem
      (Text.isBreak_of_terminator c.terminator_eq)
    rw [← List.cons_append, ← hcomment, hdrop, List.drop_left] at hstart
    rwa [NoiseLine.lexemes, if_neg (by rw [hcomment]; exact List.cons_ne_nil _ _)]
  · have hstart : LineStart levels c.text _ :=
      .lineBreak c.blanks first rest c.isBlank_of_mem
        (by rw [NoiseLine.text, hnone, hterminator, List.nil_append]) hbreak
    rw [NoiseLine.lexemes, if_pos hnone, hterminator]
    exact hstart

/-- A line without code, in brackets. -/
theorem scan_noise (c : NoiseLine) {depth : Nat} (hdepth : depth ≠ 0) :
    ∃ before, scan depth c.text = ⟨before ++ c.lexemes, depth, .nothing⟩ ∧
      (before = [.gap c.blanks] ∨ before = [] ∧ c.blanks = []) := by
  have hbehind : ∃ first rest, c.comment ++ c.terminator = first :: rest ∧
      Text.isBlank first = false ∧
      scan depth (first :: rest) = ⟨c.lexemes, depth, .nothing⟩ := by
    rcases c.exists_rest with ⟨text, hcomment⟩ | ⟨hnone, first, rest, hterminator, hbreak⟩
    · refine ⟨'#', text ++ c.terminator, by rw [hcomment, List.cons_append], rfl, ?_⟩
      have hne : c.comment ≠ [] := by
        rw [hcomment]
        exact List.cons_ne_nil _ _
      rw [scan_comment hdepth (hcomment ▸ c.not_break_of_mem) c.terminator_eq,
        NoiseLine.lexemes, if_neg hne, hcomment]
      rfl
    · refine ⟨first, rest, by rw [hnone, hterminator, List.nil_append], ?_, ?_⟩
      · simp only [Text.isBreak, Bool.or_eq_true, beq_iff_eq] at hbreak
        rcases hbreak with rfl | rfl <;> rfl
      · rw [← hterminator, scan_terminator hdepth c.terminator_eq, NoiseLine.lexemes, if_pos hnone]
        rfl
  obtain ⟨first, rest, hrest, hfirst, hscan⟩ := hbehind
  by_cases hblanks : c.blanks = []
  · refine ⟨[], ?_, Or.inr ⟨rfl, hblanks⟩⟩
    rw [NoiseLine.text, hblanks, List.nil_append, hrest, hscan, List.nil_append]
  · refine ⟨[.gap c.blanks], ?_, Or.inl rfl⟩
    rw [NoiseLine.text, hrest, scan_blanks c.isBlank_of_mem rest hfirst hblanks, hscan]
    rfl

/-- A line without code leaves the state as it is, in brackets and outside. -/
theorem cutLine_noise (c : NoiseLine) {s : State} (hcarry : s.carry = .nothing) :
    ∃ before, cutLine s c.text = .ok (before ++ c.lexemes, s) ∧
      (before = [.gap c.blanks] ∨ before = [] ∧ c.blanks = []) := by
  obtain ⟨levels, depth, carry⟩ := s
  obtain rfl : carry = .nothing := hcarry
  by_cases hdepth : depth = 0
  · refine ⟨[.gap c.blanks], ?_, Or.inl rfl⟩
    simp only [cutLine, hdepth, if_true, start_eq_of_lineStart (lineStart_noise c levels)]
    rfl
  · obtain ⟨before, hscan, hbefore⟩ := scan_noise c hdepth
    refine ⟨before, ?_, hbefore⟩
    simp only [cutLine, if_neg hdepth, scanRest, hscan, List.nil_append]
    rfl

end Segmentation

open Segmentation

def outcomeFrom (s : State) (lines : List Text) : Except LexicalError (List Token) :=
  match cutLines s lines with
  | .error p => .error ⟨.inconsistentDedent, p, lines[p.line - 1]?⟩
  | .ok (pieces, last) => finish lines pieces last

theorem tokenize_eq_outcomeFrom (source : Text) :
    tokenize source = outcomeFrom {} (Text.lines source) := rfl

section Above

variable {above : List Text} {front : List Piece} {s : State} {t : Token}

/-- Tokens of whole lines start on these lines, if no string is open behind them. -/
theorem start_line_le (hwhole : ∀ line ∈ above, ∃ body, line = body ++ ['\n'] ∧ '\n' ∉ body)
    (h : cutLines {} above = .ok (front, s)) (hcarry : s.carry.text = []) {table : Array Text}
    (ht : t ∈ Piece.place table .origin front) : t.start.line ≤ above.length :=
  (Position.line_le_of_le (Piece.start_le_stop_of_mem_place ht)).trans
    (stop_line_le hwhole h hcarry ht)

theorem start_line_lt (hwhole : ∀ line ∈ above, ∃ body, line = body ++ ['\n'] ∧ '\n' ∉ body)
    (h : cutLines {} above = .ok (front, s)) (hcarry : s.carry.text = []) {table : Array Text} :
    ∀ t ∈ Piece.place table .origin front, t.start.line - 1 < above.length := by
  intro t ht
  have hfirst : 1 ≤ t.start.line := Position.line_le_of_le (Piece.start_le_of_mem_place ht)
  have hline := start_line_le hwhole h hcarry ht
  omega

end Above

/-- The outcome of a source is that of its last lines, cut from the state behind the lines above
them, below the tokens of these. -/
theorem outcomeFrom_append {a : Text} {front : List Piece} {s : State}
    (ha : a = [] ∨ a.getLast? = some '\n') (hcut : cutLines {} (Text.lines a) = .ok (front, s))
    (hcarry : s.carry = .nothing) (below : List Text) :
    outcomeFrom {} (Text.lines a ++ below) =
      followedBy (Piece.place (Text.lines a).toArray .origin front) (Text.lines a).length
        (outcomeFrom s below) := by
  have hnone : s.carry.text = [] := by rw [hcarry]; rfl
  have hwhole := Text.whole_of_feed ha
  have hpast : Position.origin.past (Piece.cover front) =
      Position.origin.down (Text.lines a).length := by
    rw [past_of_cutLines hwhole hcut hnone, Nat.add_comm]
    rfl
  have hstart : ∀ t ∈ Piece.place (Text.lines a).toArray .origin front,
      t.start.line - 1 < (Text.lines a).length := start_line_lt hwhole hcut hnone
  rw [outcomeFrom, outcomeFrom, cutLines_append hcut]
  cases hmore : cutLines s below with
  | error p =>
    have hline := getElem?_append_down (Text.lines a) below (one_le_line_of_cutLines hmore)
    simp only [followedBy, LexicalError.down, Except.error.injEq, LexicalError.mk.injEq, true_and]
    exact hline
  | ok r =>
    exact finish_down (Text.lines a) below r.1 r.2 hpast hstart
      (Accepted.suppliedNewline_of_feed ha)

/-- What comes of lines stands on the first of them or below. -/
theorem one_le_line_of_outcomeFrom (s : State) (lines : List Text) :
    (∀ tokens, outcomeFrom s lines = .ok tokens → ∀ t ∈ tokens, 1 ≤ t.start.line) ∧
      ∀ e, outcomeFrom s lines = .error e → 1 ≤ e.position.line := by
  unfold outcomeFrom
  cases hcut : cutLines s lines with
  | error p =>
    refine ⟨by rintro tokens ⟨⟩, ?_⟩
    rintro e ⟨⟩
    exact one_le_line_of_cutLines hcut
  | ok r =>
    obtain ⟨pieces, last⟩ := r
    simp only [finish]
    split
    · refine ⟨by rintro tokens ⟨⟩, ?_⟩
      rintro e ⟨⟩
      exact Position.line_le_past .origin (Piece.cover pieces)
    · refine ⟨by rintro tokens ⟨⟩, ?_⟩
      rintro e ⟨⟩
      exact Nat.le_add_left 1 _
    · split
      · refine ⟨?_, by rintro e ⟨⟩⟩
        rintro tokens ⟨⟩ t ht
        rcases List.mem_append.1 ht with ht | ht
        · rcases List.mem_append.1 ht with ht | ht
          · exact Position.line_le_of_le (Piece.start_le_of_mem_place ht)
          · unfold suppliedNewline at ht
            simp only at ht
            split at ht
            · rename_i hneeds
              rw [List.mem_singleton.1 ht]
              cases lines with
              | nil => cases hneeds
              | cons line later => exact Nat.le_add_left 1 _
            · cases ht
        · rw [(mem_closing ht).2.2.1]
          exact Nat.le_add_left 1 _
      · refine ⟨by rintro tokens ⟨⟩, ?_⟩
        rintro e ⟨⟩
        exact Nat.le_add_left 1 _

/-- The outcome when one more line stands below the first `n` ones: the given tokens of that line
come in between, and what is below it moves down. -/
def withLineBelow (n : Nat) (own : List Token) :
    Except LexicalError (List Token) → Except LexicalError (List Token)
  | .ok tokens =>
    .ok (tokens.takeWhile (·.start.line ≤ n) ++ own ++
      (tokens.dropWhile (·.start.line ≤ n)).map (·.down 1))
  | .error e => .error (if e.position.line ≤ n then e else e.down 1)

/-- Whether a source ends on a whole line and leaves neither a string nor a continuation open, as
far as its lines can be cut. -/
structure EndsBetweenLines (source : Text) : Prop where
  feed : source = [] ∨ source.getLast? = some '\n'
  carry : ∀ pieces s, cutLines {} (Text.lines source) = .ok (pieces, s) → s.carry = .nothing

section Moved

variable {n : Nat} {above below : List Token}

theorem withLineBelow_append (own : List Token) (habove : ∀ t ∈ above, t.start.line ≤ n)
    (hbelow : ∀ t ∈ below, n < t.start.line) :
    withLineBelow n own (.ok (above ++ below)) =
      .ok (above ++ own ++ below.map (·.down 1)) := by
  have htake : below.takeWhile (·.start.line ≤ n) = [] ∧
      below.dropWhile (·.start.line ≤ n) = below := by
    cases below with
    | nil => exact ⟨rfl, rfl⟩
    | cons t later =>
      have ht : ¬ t.start.line ≤ n := Nat.not_le.2 (hbelow t (List.mem_cons_self ..))
      simp [ht]
  have habove' : ∀ t ∈ above, decide (t.start.line ≤ n) = true :=
    fun t ht => decide_eq_true (habove t ht)
  rw [withLineBelow, List.takeWhile_append_of_pos habove', List.dropWhile_append_of_pos habove',
    htake.1, htake.2, List.append_nil]

/-- A line between two parts moves the second one down. -/
theorem withLineBelow_followedBy (own : List Token) (habove : ∀ t ∈ above, t.start.line ≤ n)
    {outcome : Except LexicalError (List Token)}
    (htokens : ∀ tokens, outcome = .ok tokens → ∀ t ∈ tokens, 1 ≤ t.start.line)
    (herror : ∀ e, outcome = .error e → 1 ≤ e.position.line) :
    withLineBelow n own (followedBy above n outcome) =
      followedBy (above ++ own) (n + 1) outcome := by
  cases outcome with
  | ok tokens =>
    have hbelow : ∀ t ∈ tokens.map (·.down n), n < t.start.line := by
      intro t ht
      obtain ⟨u, hu, rfl⟩ := List.mem_map.1 ht
      have hfirst := htokens tokens rfl u hu
      simp only [Token.down, Position.down]
      omega
    rw [followedBy, withLineBelow_append own habove hbelow, followedBy, List.map_map]
    rfl
  | error e =>
    have hfirst := herror e rfl
    have hdown : ¬ (e.down n).position.line ≤ n := by
      simp only [LexicalError.down, Position.down]
      omega
    rw [followedBy, withLineBelow, if_neg hdown]
    rfl

def Token.movedBelow (n : Nat) (t : Token) : Token :=
  if t.start.line ≤ n then t else t.down 1

theorem map_movedBelow (habove : ∀ t ∈ above, t.start.line ≤ n)
    (hbelow : ∀ t ∈ below, n < t.start.line) :
    (above ++ below).map (Token.movedBelow n) = above ++ below.map (·.down 1) := by
  have hstay : above.map (Token.movedBelow n) = above := by
    calc
      _ = above.map id := List.map_congr_left fun t ht => if_pos (habove t ht)
      _ = above := List.map_id above
  have hmove : below.map (Token.movedBelow n) = below.map (·.down 1) :=
    List.map_congr_left fun t ht => if_neg (Nat.not_le.2 (hbelow t ht))
  rw [List.map_append, hstay, hmove]

/-- Tokens in between that are scrubbed change only the places of what is left. -/
theorem scrub_withLine {own : List Token} (hown : ∀ t ∈ own, t.isNoise)
    (habove : ∀ t ∈ above, t.start.line ≤ n) (hbelow : ∀ t ∈ below, n < t.start.line) :
    Except.ok (scrub (above ++ own ++ below.map (·.down 1))) =
      withLineBelow n [] (.ok (scrub (above ++ below))) := by
  have hkind : ∀ t : Token, (t.movedBelow n).kind = t.kind := by
    intro t
    unfold Token.movedBelow
    split <;> rfl
  obtain ⟨front, back, hscrub, hfront, hback⟩ :=
    List.sublist_append_iff.1 (scrub_sublist (above ++ below))
  have hfront' : ∀ t ∈ front, t.start.line ≤ n := fun t ht => habove t (hfront.subset ht)
  have hback' : ∀ t ∈ back, n < t.start.line := fun t ht => hbelow t (hback.subset ht)
  have hnone : own.filter (fun t => !t.isNoise) = [] := by
    apply List.filter_eq_nil_iff.2
    intro t ht
    rw [hown t ht]
    exact Bool.false_ne_true
  calc
    _ = Except.ok (scrub (above ++ below.map (·.down 1))) := by
      simp only [scrub, List.filter_append, hnone, List.append_nil]
    _ = Except.ok ((scrub (above ++ below)).map (Token.movedBelow n)) := by
      rw [← scrub_map hkind, map_movedBelow habove hbelow]
    _ = _ := by
      rw [hscrub, map_movedBelow hfront' hback', withLineBelow_append [] hfront' hback',
        List.append_nil]

end Moved

namespace NoiseLine

theorem isNoise_of_mem_tokens (c : NoiseLine) (number : Nat) :
    ∀ t ∈ c.tokens number, t.isNoise := by
  intro t ht
  unfold tokens at ht
  split at ht
  · rw [List.mem_singleton.1 ht]
    rfl
  · rcases List.mem_cons.1 ht with rfl | ht
    · rfl
    · rw [List.mem_singleton.1 ht]
      rfl

/-- The tokens of the line in its place. -/
theorem place_lexemes (c : NoiseLine) {table : Array Text} {number : Nat}
    (hline : table[number]? = some c.text) {before : List Piece}
    (hbefore : before = [.gap c.blanks] ∨ before = [] ∧ c.blanks = []) :
    Piece.place table ⟨number + 1, 0⟩ (before ++ c.lexemes) = c.tokens (number + 1) := by
  have hcover : Position.past ⟨number + 1, 0⟩ (Piece.cover before) =
      ⟨number + 1, c.blanks.length⟩ := by
    have hblanks := Position.past_of_no_feed ⟨number + 1, 0⟩
      (Text.not_feed_of_blanks c.isBlank_of_mem)
    rw [Nat.zero_add] at hblanks
    rcases hbefore with rfl | ⟨rfl, hnone⟩
    · rw [Piece.cover_singleton]
      exact hblanks
    · rw [hnone]
      rfl
  have hnone : Piece.place table ⟨number + 1, 0⟩ before = [] := by
    rcases hbefore with rfl | ⟨rfl, -⟩ <;> rfl
  have hcommentPast := Position.past_of_no_feed ⟨number + 1, c.blanks.length⟩ c.not_feed_of_comment
  have hcommentFeed : '\n' ∉ c.comment.dropLast :=
    fun hfeed => c.not_feed_of_comment (List.dropLast_subset _ hfeed)
  have hterminatorFeed : '\n' ∉ c.terminator.dropLast := by
    rcases c.terminator_eq with heq | heq <;> rw [heq] <;> decide
  have hcommentStop := Position.stop_of_no_feed ⟨number + 1, c.blanks.length⟩ hcommentFeed
  have hterminatorStop := Position.stop_of_no_feed
    ⟨number + 1, c.blanks.length + c.comment.length⟩ hterminatorFeed
  rw [Piece.place_append, hcover, hnone, List.nil_append, lexemes, tokens]
  by_cases hcomment : c.comment = []
  · simp only [hcomment, List.length_nil, Nat.add_zero] at hterminatorStop
    simp only [hcomment, if_true, List.nil_append, List.length_nil, Nat.add_zero, Piece.place,
      hterminatorStop, Nat.add_sub_cancel, hline]
  · simp only [if_neg hcomment, List.cons_append, List.nil_append, Piece.place, hcommentPast,
      hcommentStop, hterminatorStop, Nat.add_sub_cancel, hline]

end NoiseLine

theorem line_le_of_cutLines {s : State} {lines : List Text} {p : Position}
    (h : cutLines s lines = .error p) : p.line ≤ lines.length := by
  induction lines generalizing s p with
  | nil => cases h
  | cons line later ih =>
    unfold cutLines at h
    split at h
    · cases h
      exact Nat.le_add_left 1 _
    · split at h
      · rename_i q hlater
        cases h
        have hline := ih hlater
        simp only [Position.down, List.length_cons]
        omega
      · cases h

/-- An inconsistent dedent in a source stays what it is, whatever whole lines follow. -/
theorem tokenize_append_of_error {a : Text} {p : Position}
    (ha : a = [] ∨ a.getLast? = some '\n') (hcut : cutLines {} (Text.lines a) = .error p)
    (b : Text) :
    tokenize (a ++ b) = .error ⟨.inconsistentDedent, p, (Text.lines a)[p.line - 1]?⟩ := by
  have hfirst := one_le_line_of_cutLines hcut
  have hlast := line_le_of_cutLines hcut
  have hline : (Text.lines a ++ Text.lines b)[p.line - 1]? = (Text.lines a)[p.line - 1]? :=
    List.getElem?_append_left (by omega)
  simp only [tokenize, Text.lines_append ha, cutLines_append_of_error hcut, hline]

/-- Behind a source and a line without code stands the state behind the source, and the tokens of
the line follow those of the source. -/
theorem outcome_of_noise {a : Text} {front : List Piece} {s : State}
    (ha : a = [] ∨ a.getLast? = some '\n') (hcut : cutLines {} (Text.lines a) = .ok (front, s))
    (hcarry : s.carry = .nothing) (c : NoiseLine) (b : Text) :
    tokenize (a ++ c.text ++ b) =
      followedBy (Piece.place (Text.lines a).toArray .origin front ++
        c.tokens ((Text.lines a).length + 1)) ((Text.lines a).length + 1)
        (outcomeFrom s (Text.lines b)) := by
  have hlines : Text.lines (a ++ c.text) = Text.lines a ++ [c.text] := by
    rw [Text.lines_append ha, c.lines_text]
  have hfeed : (a ++ c.text).getLast? = some '\n' := by
    have hne : c.text ≠ [] := by
      intro hnil
      have hlast := c.getLast?_text
      rw [hnil] at hlast
      cases hlast
    rw [List.getLast?_append_of_ne_nil _ hne, c.getLast?_text]
  obtain ⟨before, hnoise, hbefore⟩ := cutLine_noise c hcarry
  have hmore : cutLines {} (Text.lines (a ++ c.text)) =
      .ok (front ++ (before ++ c.lexemes), s) := by
    rw [hlines, cutLines_append hcut]
    simp only [cutLines, hnoise, List.append_nil]
  have hnone : s.carry.text = [] := by rw [hcarry]; rfl
  have hwhole := Text.whole_of_feed ha
  have hpast := past_of_cutLines hwhole hcut hnone
  have hplace : Piece.place (Text.lines (a ++ c.text)).toArray .origin
      (front ++ (before ++ c.lexemes)) =
        Piece.place (Text.lines a).toArray .origin front ++
          c.tokens ((Text.lines a).length + 1) := by
    rw [hlines, Piece.place_append, place_above _ _ (start_line_lt hwhole hcut hnone), hpast]
    congr 1
    apply c.place_lexemes _ hbefore
    simp
  rw [tokenize_eq_outcomeFrom, Text.lines_append (Or.inr hfeed),
    outcomeFrom_append (Or.inr hfeed) hmore hcarry, hplace, hlines, List.length_append,
    List.length_singleton]

/-- Lines without code are noise. Where neither a string nor a continuation is open, a line without
code moves what is below it down by one line and adds its own comment and line break, which
scrubbing drops again. -/
theorem tokenize_noiseLine {a : Text} (ha : EndsBetweenLines a) (c : NoiseLine) (b : Text) :
    tokenize (a ++ c.text ++ b) =
        withLineBelow (Text.lines a).length (c.tokens ((Text.lines a).length + 1))
          (tokenize (a ++ b)) ∧
      (tokenize (a ++ c.text ++ b)).map scrub =
        withLineBelow (Text.lines a).length [] ((tokenize (a ++ b)).map scrub) := by
  cases hcut : cutLines {} (Text.lines a) with
  | error p =>
    have hline : p.line ≤ (Text.lines a).length := line_le_of_cutLines hcut
    rw [List.append_assoc, tokenize_append_of_error ha.feed hcut,
      tokenize_append_of_error ha.feed hcut]
    simp only [Except.map, withLineBelow, if_pos hline, and_self]
  | ok r =>
    obtain ⟨front, s⟩ := r
    have hcarry := ha.carry front s hcut
    have hnone : s.carry.text = [] := by rw [hcarry]; rfl
    have habove : ∀ t ∈ Piece.place (Text.lines a).toArray .origin front,
        t.start.line ≤ (Text.lines a).length := by
      intro t ht
      exact start_line_le (Text.whole_of_feed ha.feed) hcut hnone ht
    obtain ⟨htokens, herror⟩ := one_le_line_of_outcomeFrom s (Text.lines b)
    have hbelow : tokenize (a ++ b) =
        followedBy (Piece.place (Text.lines a).toArray .origin front) (Text.lines a).length
          (outcomeFrom s (Text.lines b)) := by
      rw [tokenize_eq_outcomeFrom, Text.lines_append ha.feed,
        outcomeFrom_append ha.feed hcut hcarry]
    rw [outcome_of_noise ha.feed hcut hcarry, hbelow]
    refine ⟨(withLineBelow_followedBy _ habove htokens herror).symm, ?_⟩
    cases houtcome : outcomeFrom s (Text.lines b) with
    | error e =>
      rw [houtcome] at htokens herror
      exact (withLineBelow_followedBy [] habove htokens herror).symm
    | ok tokens =>
      have hmoved : ∀ t ∈ tokens.map (·.down (Text.lines a).length),
          (Text.lines a).length < t.start.line := by
        intro t ht
        obtain ⟨u, hu, rfl⟩ := List.mem_map.1 ht
        have hfirst := htokens tokens houtcome u hu
        simp only [Token.down, Position.down]
        omega
      have hscrub := scrub_withLine (c.isNoise_of_mem_tokens ((Text.lines a).length + 1)) habove
        hmoved
      rw [List.map_map] at hscrub
      exact hscrub

/-- A comment line in an open bracket of an indented statement. -/
theorem tokenize_noiseLine_in_brackets :
    let a : Text := [' ', '(', '\n']
    let c : NoiseLine :=
      { blanks := ['\t'], comment := ['#', '('], terminator := ['\r', '\n'],
        isBlank_of_mem := rfl, comment_eq := Or.inr ⟨['('], rfl⟩,
        not_break_of_mem := List.forall_mem_cons.2 ⟨rfl, List.forall_mem_singleton.2 rfl⟩,
        terminator_eq := Or.inr rfl }
    let line : Text := ['\t', '#', '(', '\r', '\n']
    EndsBetweenLines a ∧
      tokenize (a ++ c.text ++ [')', '\n']) = .ok
        [⟨.indent, [' '], ⟨1, 0⟩, ⟨1, 1⟩, some a⟩, ⟨.operator, ['('], ⟨1, 1⟩, ⟨1, 2⟩, some a⟩,
          ⟨.lineBreak, ['\n'], ⟨1, 2⟩, ⟨1, 3⟩, some a⟩,
          ⟨.comment, ['#', '('], ⟨2, 1⟩, ⟨2, 3⟩, some line⟩,
          ⟨.lineBreak, ['\r', '\n'], ⟨2, 3⟩, ⟨2, 5⟩, some line⟩,
          ⟨.operator, [')'], ⟨3, 0⟩, ⟨3, 1⟩, some [')', '\n']⟩,
          ⟨.newline, ['\n'], ⟨3, 1⟩, ⟨3, 2⟩, some [')', '\n']⟩,
          ⟨.dedent, [], ⟨4, 0⟩, ⟨4, 0⟩, none⟩, ⟨.endMarker, [], ⟨4, 0⟩, ⟨4, 0⟩, none⟩] := by
  intro a c line
  have ha : EndsBetweenLines a := by
    refine ⟨Or.inr rfl, ?_⟩
    rintro pieces s ⟨⟩
    rfl
  refine ⟨ha, ?_⟩
  rw [(tokenize_noiseLine ha c [')', '\n']).1]
  rfl

end SourceTokens
