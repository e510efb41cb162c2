import SourceTokens.Proofs.ByteRuns
import SourceTokens.Proofs.FreshLines

/-!
The lexer by byte offsets over the lines of a source. It comes to an end of every line with a block
still open, so an exhausted counter is the only fault that it can meet. Beside it runs the cut of the
lines by characters. As long as no counter is exhausted, the machine follows the cut: its tokens are
those of the pieces so far, and it leaves unfinished what the cut leaves.
-/

namespace SourceTokens

namespace Text

variable {a b : Text}

theorem not_feed_before (h : '\n' ∉ (a ++ b).dropLast) (hb : b ≠ []) : '\n' ∉ a := by
  rw [List.dropLast_append_of_ne_nil hb] at h
  exact fun hfeed => h (List.mem_append_left _ hfeed)

theorem not_feed_front (h : '\n' ∉ (a ++ b).dropLast) : '\n' ∉ a.dropLast := by
  cases b with
  | nil => rwa [List.append_nil] at h
  | cons c rest =>
    exact fun hfeed =>
      not_feed_before h (List.cons_ne_nil c rest) ((List.dropLast_sublist a).mem hfeed)

theorem not_feed_back (h : '\n' ∉ (a ++ b).dropLast) : '\n' ∉ b.dropLast := by
  cases b with
  | nil => exact List.not_mem_nil
  | cons c rest =>
    rw [List.dropLast_append_of_ne_nil (List.cons_ne_nil c rest)] at h
    exact fun hfeed => h (List.mem_append_right _ hfeed)

/-- A line ends in its only line feed, or it has none. -/
theorem whole_or_open (h : '\n' ∉ a.dropLast) :
    (∃ body, a = body ++ ['\n'] ∧ '\n' ∉ body) ∨ '\n' ∉ a := by
  rcases List.eq_nil_or_concat a with rfl | ⟨body, c, rfl⟩
  · exact Or.inr List.not_mem_nil
  · rw [List.concat_eq_append, List.dropLast_concat] at h
    rw [List.concat_eq_append]
    by_cases hc : c = '\n'
    · exact Or.inl ⟨body, by rw [hc], h⟩
    · exact Or.inr (List.not_mem_append h (by simpa using Ne.symm hc))

end Text

theorem Piece.not_feed_of_cover {pieces : List Piece} (h : '\n' ∉ cover pieces) :
    ∀ p ∈ pieces, '\n' ∉ p.text :=
  fun p hp hfeed => h (List.mem_flatMap.2 ⟨p, hp, hfeed⟩)

namespace Indentation

/-- The last piece of a line without code is the only one that reaches its line feed. -/
theorem not_feed_inside {levels : List Nat} {line : Text} {pieces : List Piece}
    (h : LineStart levels line (.noCode pieces)) (hfeed : '\n' ∉ line.dropLast) :
    ∀ p ∈ pieces.dropLast, '\n' ∉ p.text := by
  cases h with
  | blank => exact fun p hp => absurd hp List.not_mem_nil
  | comment blanks rest hblanks hline =>
    have hcomment := Text.not_feed_of_dropBreaks (List.cons_ne_nil '#' rest)
      (Text.whole_or_open (hline ▸ hfeed))
    simp only [List.dropLast_cons_cons, List.dropLast_singleton, List.mem_cons, List.not_mem_nil,
      or_false, forall_eq_or_imp, forall_eq]
    exact ⟨Text.not_feed_of_blanks hblanks, hcomment⟩
  | lineBreak blanks c rest hblanks =>
    simp only [List.dropLast_cons_cons, List.dropLast_singleton, List.mem_singleton, forall_eq]
    exact Text.not_feed_of_blanks hblanks

end Indentation

namespace LineScan

/-- The last piece of a line is the only one that reaches its line feed. -/
theorem not_feed_inside (depth : Nat) (text : Text) (hfeed : '\n' ∉ text.dropLast) :
    ∀ p ∈ (scan depth text).pieces.dropLast, '\n' ∉ p.text := by
  induction depth, text using scan_induction with
  | nil => exact fun p hp => absurd hp List.not_mem_nil
  | continuation => exact fun p hp => absurd hp List.not_mem_nil
  | unclosed => exact fun p hp => absurd hp List.not_mem_nil
  | piece depth c rest first after htaken hcover ih =>
    rw [← hcover] at hfeed
    cases after with
    | nil => exact fun p hp => absurd hp List.not_mem_nil
    | cons d later =>
      have hfirst := Text.not_feed_before hfeed (List.cons_ne_nil d later)
      intro p hp
      change p ∈ (first :: (scan _ (d :: later)).pieces).dropLast at hp
      cases hmore : (scan (depthAfter depth first) (d :: later)).pieces with
      | nil =>
        rw [hmore] at hp
        cases hp
      | cons q more =>
        rw [hmore, List.dropLast_cons_cons] at hp
        rcases List.mem_cons.1 hp with rfl | hp
        · exact hfirst
        · exact ih (Text.not_feed_back hfeed) p (by rwa [hmore])

end LineScan

/-- The quotes that close a string stand on one line with it. -/
theorem StringLiteral.not_feed_of_closer {d : Delimiter} {line body rest : Text}
    (h : splitAtCloser d line = some (body, rest)) (hfeed : '\n' ∉ line.dropLast) :
    '\n' ∉ body := by
  rw [← splitAtCloser_append h] at hfeed
  rcases Text.whole_or_open (Text.not_feed_front hfeed) with ⟨front, hbody, -⟩ | hopen
  · exfalso
    obtain ⟨before, hbefore⟩ := exists_closer_of_split h
    obtain ⟨quotes, hquotes⟩ := exists_quote_of_delimiter d
    rw [hquotes, ← List.append_assoc, hbody] at hbefore
    have hquote : '\n' = d.quote.char := (List.append_inj' hbefore rfl).2 |> List.singleton_inj.1
    cases hq : d.quote <;> rw [hq] at hquote <;> cases hquote
  · exact hopen

namespace ByteLexer

open Indentation LineScan Segmentation StringLiteral Utf8

variable {table : Array Text} {line : Line} {m : Machine} {s : State} {pieces : List Piece}

/-- The tokens of pieces on a line are those of their places, while columns can be counted. -/
theorem Line.tokens_eq_place (hline : table[line.number - 1]? = some line.text) {before : Text}
    (hbound : (before ++ Piece.cover pieces).length < UInt32.size)
    (hfeed : '\n' ∉ (Piece.cover pieces).dropLast)
    (hinside : ∀ p ∈ pieces.dropLast, '\n' ∉ p.text) :
    line.tokens before pieces = Piece.place table ⟨line.number, before.length⟩ pieces := by
  induction pieces generalizing before with
  | nil => rfl
  | cons p later ih =>
    rw [Piece.cover_cons] at hbound hfeed
    rw [← List.append_assoc] at hbound
    have hlater : line.tokens (before ++ p.text) later =
        Piece.place table (Position.past ⟨line.number, before.length⟩ p.text) later := by
      cases later with
      | nil => rfl
      | cons q more =>
        rw [List.dropLast_cons_cons, List.forall_mem_cons] at hinside
        rw [ih hbound (Text.not_feed_back hfeed) hinside.2, Position.past_of_no_feed _ hinside.1,
          List.length_append]
    cases p with
    | gap text => exact hlater
    | lexeme kind text =>
      change '\n' ∉ (text ++ Piece.cover later).dropLast at hfeed
      have hspan : (before ++ text).length < UInt32.size := by
        rw [List.length_append] at hbound
        exact Nat.lt_of_le_of_lt (Nat.le_add_right _ _) hbound
      rw [List.length_append] at hspan
      have hstart : word before.length = before.length := word_of_lt (by omega)
      have hstop : word (before ++ text).length = before.length + text.length := by
        rw [List.length_append, word_of_lt hspan]
      have htoken : line.token kind before text =
          Piece.token table ⟨line.number, before.length⟩ kind text := by
        rw [Line.token, Piece.token, hstart, hstop,
          Position.stop_of_no_feed _ (Text.not_feed_front hfeed), hline]
      exact congrArg₂ List.cons htoken hlater

/-- Whether no column on the way to the code of a line is too large, if a statement may begin on the
line. On any other line the blanks are not measured. -/
def Narrow (s : State) (line : Text) : Prop :=
  s.carry = .nothing → s.depth = 0 →
    ∀ blanks ∈ (line.takeWhile Text.isBlank).inits, width blanks < UInt32.size

inductive Machine.Carries (table : Array Text) (p : Position) (m : Machine) : Carry → Prop
  | nothing (hcontinued : m.continued = false) (hopened : m.opened = none) :
      Carries table p m .nothing
  | continuation (hcontinued : m.continued = true) (hopened : m.opened = none) :
      Carries table p m .continuation
  | string (d : Delimiter) (text line : Text) (hline : table[p.line - 1]? = some line)
      (hcontinued : m.continued = false) (hopened : m.opened = some ⟨p, text, line, d⟩) :
      Carries table p m (.string d text)

/-- Whether a machine has read the lines that were cut into some pieces. -/
structure Machine.Follows (table : Array Text) (pieces : List Piece) (s : State) (m : Machine) :
    Prop where
  tokens_eq : m.tokens = Piece.place table .origin pieces
  levels_eq : m.levels = s.levels
  depth_eq : m.depth = s.depth
  carries : m.Carries table (Position.origin.past (Piece.cover pieces)) s.carry

namespace Machine

theorem follows_start (table : Array Text) (checked : Bool) :
    Follows table [] {} { checked := checked } :=
  ⟨rfl, rfl, rfl, .nothing rfl rfl⟩

/-- A machine that has followed the cut up to a place on a line follows the scan of the rest. -/
theorem follows_scanned {before rest : Text} (happend : before ++ rest = line.text)
    (htokens : m.tokens = Piece.place table .origin pieces)
    (hpast : Position.origin.past (Piece.cover pieces) = ⟨line.number, before.length⟩)
    (hcontinued : m.continued = false) (hopened : m.opened = none)
    (hline : table[line.number - 1]? = some line.text) (hfeed : '\n' ∉ line.text.dropLast)
    (hbound : line.text.length < UInt32.size) :
    Follows table (pieces ++ (scan m.depth rest).pieces) (.ofScan m.levels (scan m.depth rest))
      (m.scanned line before (scan m.depth rest)) := by
  have hcovers := scan_cover m.depth rest
  have hinside := not_feed_inside m.depth rest
  have hopen := @carry_ne_nil_of_scan m.depth rest
  generalize scan m.depth rest = r at *
  rw [← happend] at hfeed hbound
  have hrest := Text.not_feed_back hfeed
  rw [← hcovers] at hfeed hrest hbound
  rw [← List.append_assoc, List.length_append] at hbound
  have hspan : (before ++ Piece.cover r.pieces).length < UInt32.size := by omega
  have hplace := Line.tokens_eq_place hline hspan (Text.not_feed_front hrest)
    (hinside (hcovers ▸ hrest))
  refine ⟨?_, rfl, rfl, ?_⟩
  · rw [Piece.place_append, hpast, ← hplace, ← htokens]
    rfl
  · obtain ⟨pieces', depth', carry⟩ := r
    cases carry with
    | nothing => exact .nothing (by simp [scanned, hcontinued]) hopened
    | continuation => exact .continuation (by simp [scanned]) hopened
    | string d text =>
      have hcover : '\n' ∉ Piece.cover pieces' := Text.not_feed_before hrest (hopen rfl)
      have hbegins : Position.origin.past (Piece.cover (pieces ++ pieces')) =
          ⟨line.number, (before ++ Piece.cover pieces').length⟩ := by
        rw [Piece.cover_append, Position.past_append, hpast, Position.past_of_no_feed _ hcover,
          List.length_append]
      refine .string d text line.text ?_ (by simp [scanned, hcontinued]) ?_
      · rw [hbegins, hline]
      · rw [hbegins, scanned]
        simp only [word_of_lt hspan]

def endString (m : Machine) (line : Line) (s : OpenString) (kind : TokenKind) (body : Text) :
    Machine :=
  { m with
    opened := none
    tokens := m.tokens ++
      [⟨kind, s.text ++ body, s.start, ⟨line.number, word body.length⟩, some s.line⟩] }

/-- A line that begins inside a string. -/
theorem lexLine_of_string {s : OpenString} (hopened : m.opened = some s) :
    m.lexLine line =
      match splitAtCloser s.delimiter line.text with
      | some (body, _) =>
        ((m.endString line s .string body).scanLine line (byteCount body)).map .ok
      | none =>
        if !s.delimiter.triple && !endsInContinuation line.text then
          .ok (.ok (m.endString line s .unrecognized line.text))
        else .ok (.ok { m with opened := some { s with text := s.text ++ line.text } }) := by
  rw [lexLine, hopened]
  simp only [closerEnd_eq s.delimiter (At.start line.text).restAt, Nat.zero_add]
  cases hsplit : splitAtCloser s.delimiter line.text with
  | some r =>
    obtain ⟨body, rest⟩ := r
    have hbody : At line.text (byteCount body) body rest := ⟨splitAtCloser_append hsplit, rfl⟩
    simp only [Option.map_some, hbody.splitAt_eq, Line.position_eq hbody, bind, Except.bind]
    exact bind_pure_comp (m := Except Fault) _ _
  | none =>
    have hend : At line.text (byteCount line.text) line.text [] := ⟨List.append_nil _, rfl⟩
    simp only [Option.map_none, Line.position_eq hend]
    split <;> rfl

def lexBehind (m : Machine) (line : Line) : Start → Except Fault (Except LexicalError Machine)
  | .noCode pieces => .ok (.ok (m.begin line pieces m.levels))
  | .code pieces levels _ =>
    ((m.begin line pieces levels).scanLine line (byteCount (Piece.cover pieces))).map .ok
  | .misfit column =>
    .ok (.error ⟨.inconsistentDedent, ⟨line.number, word column⟩, some line.text⟩)

/-- A line that may begin a statement. -/
theorem lexLine_of_start (hopened : m.opened = none) (hdepth : m.depth = 0)
    (hcontinued : m.continued = false) (hlevels : m.levels ≠ []) :
    m.lexLine line = boundedStart m.checked m.levels line.text >>= m.lexBehind line := by
  rw [lexLine, hopened]
  simp only [hdepth, hcontinued, Bool.not_false, and_self, if_true, lexIndentation_eq line hlevels]
  cases boundedStart m.checked m.levels line.text with
  | error fault => rfl
  | ok start =>
    cases start with
    | noCode pieces => rfl
    | code pieces levels rest => exact bind_pure_comp (m := Except Fault) _ _
    | misfit column => rfl

/-- A line that goes on with a statement. -/
theorem lexLine_within (hopened : m.opened = none) (h : m.depth ≠ 0 ∨ m.continued) :
    m.lexLine line = (scanLine { m with continued := false } line 0).map .ok := by
  have hstart : ¬ (m.depth = 0 ∧ !m.continued) := by
    rintro ⟨hdepth, hcontinued⟩
    rcases h with hopen | hgoes
    · exact hopen hdepth
    · rw [hgoes] at hcontinued
      cases hcontinued
  rw [lexLine, hopened]
  simp only [hstart, if_false]
  exact bind_pure_comp (m := Except Fault) _ _

/-- The code of a line stands behind the pieces at its start, below a block that is open. -/
theorem code_of_startOfColumn {levels levels' : List Nat} {column : Nat} {blanks code rest : Text}
    (hlevels : levels ≠ [])
    (h : startOfColumn levels column blanks code = .code pieces levels' rest) :
    Piece.cover pieces ++ rest = blanks ++ code ∧ levels' ≠ [] := by
  unfold startOfColumn at h
  split at h
  · cases h
    exact ⟨by rw [Piece.cover_singleton]; rfl, List.cons_ne_nil _ _⟩
  · split at h
    · split at h
      · rename_i hopen
        cases h
        refine ⟨by rw [Piece.cover_cons, cover_dedents, List.append_nil]; rfl, ?_⟩
        intro hnil
        have hall := List.dropWhile_eq_nil_iff.1 hnil column (List.contains_iff_mem.1 hopen)
        simp at hall
      · cases h
    · cases h
      exact ⟨by rw [Piece.cover_singleton]; rfl, hlevels⟩

theorem code_of_startAtColumn {levels levels' : List Nat} {column : Nat} {text rest : Text}
    (hlevels : levels ≠ []) (h : startAtColumn levels column text = .code pieces levels' rest) :
    Piece.cover pieces ++ rest = text ∧ levels' ≠ [] := by
  unfold startAtColumn at h
  simp only at h
  split at h
  · cases h
  · rename_i c later hcode
    split at h
    · cases h
    · split at h
      · cases h
      · have hsplit := List.takeWhile_append_dropWhile (p := Text.isBlank) (l := text)
        rw [← hsplit, hcode]
        exact code_of_startOfColumn hlevels h

def Ready (m : Machine) : Except LexicalError Machine → Prop
  | .ok m' => m'.levels ≠ [] ∧ m'.checked = m.checked
  | .error _ => True

/-- From between two characters a line is read to its end. -/
theorem gives_scanLine_ready {pos : Nat} {before rest : Text} (hfeed : '\n' ∉ line.text.dropLast)
    (hlevels : m.levels ≠ []) (h : At line.text pos before rest) :
    Gives m.checked m.Ready ((m.scanLine line pos).map .ok) := by
  obtain ⟨hgives, -⟩ := gives_scanLine hfeed m h
  refine hgives.map fun m' hkeeps => ⟨?_, hkeeps.checked_eq⟩
  rwa [hkeeps.levels_eq]

/-- A line is read to its end, and a block is open behind it. -/
theorem gives_lexLine (line : Line) (hfeed : '\n' ∉ line.text.dropLast) (hlevels : m.levels ≠ []) :
    Gives m.checked m.Ready (m.lexLine line) := by
  cases hopened : m.opened with
  | some s =>
    rw [lexLine_of_string hopened]
    cases hsplit : splitAtCloser s.delimiter line.text with
    | some r =>
      exact gives_scanLine_ready (m := m.endString line s .string r.1) hfeed hlevels
        ⟨splitAtCloser_append hsplit, rfl⟩
    | none =>
      simp only
      split
      · exact .result _ ⟨hlevels, rfl⟩
      · exact .result _ ⟨hlevels, rfl⟩
  | none =>
    by_cases hwithin : m.depth ≠ 0 ∨ m.continued
    · rw [lexLine_within hopened hwithin]
      exact gives_scanLine_ready (m := { m with continued := false }) hfeed hlevels
        (At.start line.text)
    · simp only [not_or, Decidable.not_not, Bool.not_eq_true] at hwithin
      rw [lexLine_of_start hopened hwithin.1 hwithin.2 hlevels, boundedStart, bind_assoc]
      refine (gives_boundedWidth m.checked 0 _).bind fun column _ => ?_
      rw [pure_bind]
      cases hstart : startAtColumn m.levels column line.text with
      | noCode pieces => exact .result _ ⟨hlevels, rfl⟩
      | misfit column => exact .result _ trivial
      | code pieces levels rest =>
        obtain ⟨happend, hne⟩ := code_of_startAtColumn hlevels hstart
        exact gives_scanLine_ready (m := m.begin line pieces levels) hfeed hne ⟨happend, rfl⟩

/-- The machine that scans the rest of a line follows the cut to the end of the line. -/
theorem follows_scanLine {pos : Nat} {before rest : Text} (hat : At line.text pos before rest)
    (htokens : m.tokens = Piece.place table .origin pieces)
    (hpast : Position.origin.past (Piece.cover pieces) = ⟨line.number, before.length⟩)
    (hcontinued : m.continued = false) (hopened : m.opened = none)
    (hline : table[line.number - 1]? = some line.text) (hfeed : '\n' ∉ line.text.dropLast)
    (hbound : m.depth + line.text.length < UInt32.size) :
    ∃ m' : Machine, (m.scanLine line pos).map Except.ok = .ok (.ok m' : Except LexicalError _) ∧
      Follows table (pieces ++ (scan m.depth rest).pieces) (.ofScan m.levels (scan m.depth rest))
        m' := by
  have hlength := congrArg List.length hat.append_eq
  rw [List.length_append] at hlength
  obtain ⟨-, hsame⟩ := gives_scanLine hfeed m hat
  exact ⟨_, by rw [hsame (by omega)]; rfl,
    follows_scanned hat.append_eq htokens hpast hcontinued hopened hline hfeed (by omega)⟩

/-- The string that was open has its token where it is closed or given up. -/
theorem place_endString {p : Position} {text opening body after : Text} (d : Delimiter)
    (kind : TokenKind)
    (htokens : m.tokens = Piece.place table .origin pieces)
    (hp : Position.origin.past (Piece.cover pieces) = p)
    (hopening : table[p.line - 1]? = some opening) (hpast : p.past text = ⟨line.number, 0⟩)
    (happend : body ++ after = line.text) (hbody : body ≠ [])
    (hfeed : '\n' ∉ line.text.dropLast) (hbound : line.text.length < UInt32.size) :
    (m.endString line ⟨p, text, opening, d⟩ kind body).tokens =
      Piece.place table .origin (pieces ++ [.lexeme kind (text ++ body)]) := by
  have hlength := congrArg List.length happend
  rw [List.length_append] at hlength
  rw [← happend] at hfeed
  have hstop : p.stop (text ++ body) = ⟨line.number, word body.length⟩ := by
    rw [Position.stop_append p text hbody, hpast,
      Position.stop_of_no_feed _ (Text.not_feed_front hfeed), word_of_lt (by omega), Nat.zero_add]
  rw [Piece.place_append, hp, Piece.place_lexeme, Piece.token, hstop, hopening, ← htokens]
  rfl

/-- A line that begins inside a string is read as it is cut. -/
theorem follows_lexLine_of_string {d : Delimiter} {text : Text} (h : Follows table pieces s m)
    (hcarry : s.carry = .string d text) (hfeed : '\n' ∉ line.text.dropLast)
    (hne : line.text ≠ []) (hline : table[line.number - 1]? = some line.text)
    (hpast : (Position.origin.past (Piece.cover pieces)).past text = ⟨line.number, 0⟩)
    (hbound : s.depth + line.text.length < UInt32.size) :
    ∃ m', m.lexLine line = .ok (.ok m') ∧
      Follows table (pieces ++ (cutInString s d text line.text).1)
        (cutInString s d text line.text).2 m' := by
  obtain ⟨htokens, hlevels, hdepth, hcarries⟩ := h
  rw [hcarry] at hcarries
  cases hcarries with
  | string _ _ opening hopening hcontinued hopened =>
    generalize hp : Position.origin.past (Piece.cover pieces) = p at *
    rw [lexLine_of_string hopened, cutInString]
    cases hsplit : splitAtCloser d line.text with
    | some r =>
      obtain ⟨body, rest⟩ := r
      have happend := splitAtCloser_append hsplit
      have hplace := place_endString d .string htokens hp hopening hpast happend
        (splitAtCloser_ne_nil hsplit) hfeed (by omega)
      have hbehind : Position.origin.past
          (Piece.cover (pieces ++ [.lexeme .string (text ++ body)])) =
            ⟨line.number, body.length⟩ := by
        have hbody := not_feed_of_closer hsplit hfeed
        rw [Piece.cover_append, Piece.cover_singleton, Piece.text, Position.past_append, hp,
          Position.past_append, hpast, Position.past_of_no_feed _ hbody, Nat.zero_add]
      have hscan := follows_scanLine ⟨happend, rfl⟩ hplace hbehind hcontinued rfl hline hfeed
        (hdepth.symm ▸ hbound)
      rw [List.append_assoc] at hscan
      simp only [scanRest, ← hlevels, ← hdepth]
      exact hscan
    | none =>
      simp only
      split
      · refine ⟨_, rfl, ?_, hlevels, hdepth, .nothing hcontinued rfl⟩
        exact place_endString d .unrecognized htokens hp hopening hpast (List.append_nil _) hne
          hfeed (by omega)
      · refine ⟨_, rfl, by rwa [List.append_nil], hlevels, hdepth, ?_⟩
        rw [List.append_nil, hp]
        exact .string d _ opening hopening hcontinued rfl

section Start

variable (htokens : m.tokens = Piece.place table .origin pieces)
  (hpast : Position.origin.past (Piece.cover pieces) = ⟨line.number, 0⟩)
  (hcontinued : m.continued = false) (hopened : m.opened = none)
  (hline : table[line.number - 1]? = some line.text) (hfeed : '\n' ∉ line.text.dropLast)

include htokens hpast hline

/-- The pieces at the start of a line have their tokens in its first columns. -/
theorem tokens_begin {more : List Piece} (levels : List Nat)
    (hbound : (Piece.cover more).length < UInt32.size)
    (hmore : '\n' ∉ (Piece.cover more).dropLast) (hinside : ∀ p ∈ more.dropLast, '\n' ∉ p.text) :
    (m.begin line more levels).tokens = Piece.place table .origin (pieces ++ more) := by
  have hplace : line.tokens [] more = Piece.place table ⟨line.number, 0⟩ more :=
    Line.tokens_eq_place hline hbound hmore hinside
  rw [Piece.place_append, hpast, ← htokens, ← hplace]
  rfl

include hcontinued hopened hfeed

/-- The machine that scans the code of a line follows the cut to the end of the line. -/
theorem follows_begin {before : List Piece} {levels : List Nat} {rest : Text}
    (hstart : LineStart s.levels line.text (.code before levels rest))
    (hbound : m.depth + line.text.length < UInt32.size) :
    ∃ m' : Machine, ((m.begin line before levels).scanLine line
        (byteCount (Piece.cover before))).map Except.ok = .ok (.ok m' : Except LexicalError _) ∧
      Follows table (pieces ++ (scanRest levels m.depth before rest).1)
        (scanRest levels m.depth before rest).2 m' := by
  have hnone := not_feed_of_code hstart
  have hcovers := start_covers s.levels line.text
  rw [start_eq_of_lineStart hstart] at hcovers
  have happend : Piece.cover before ++ rest = line.text := hcovers
  have hlength := congrArg List.length happend
  rw [List.length_append] at hlength
  have htokens' := tokens_begin htokens hpast hline levels (show _ < UInt32.size by omega)
    (fun hmem => hnone ((List.dropLast_sublist _).mem hmem))
    (fun p hp => Piece.not_feed_of_cover hnone p ((List.dropLast_sublist _).mem hp))
  have hbehind : Position.origin.past (Piece.cover (pieces ++ before)) =
      ⟨line.number, (Piece.cover before).length⟩ := by
    rw [Piece.cover_append, Position.past_append, hpast, Position.past_of_no_feed _ hnone,
      Nat.zero_add]
  have hscan := follows_scanLine (m := m.begin line before levels) ⟨happend, rfl⟩ htokens' hbehind
    hcontinued hopened hline hfeed hbound
  rw [List.append_assoc] at hscan
  exact hscan

end Start

/-- A line that may begin a statement is read as it is cut. -/
theorem follows_lexLine_of_start (h : Follows table pieces s m) (hcarry : s.carry = .nothing)
    (hdepth : s.depth = 0) (hlevels : s.levels ≠ []) (hfeed : '\n' ∉ line.text.dropLast)
    (hline : table[line.number - 1]? = some line.text)
    (hpast : Position.origin.past (Piece.cover pieces) = ⟨line.number, 0⟩)
    (hwidth : ∀ blanks ∈ (line.text.takeWhile Text.isBlank).inits, width blanks < UInt32.size)
    (hbound : line.text.length < UInt32.size) :
    match Indentation.start s.levels line.text with
    | .noCode more => ∃ m', m.lexLine line = .ok (.ok m') ∧ Follows table (pieces ++ more) s m'
    | .code before levels rest =>
      ∃ m', m.lexLine line = .ok (.ok m') ∧
        Follows table (pieces ++ (scanRest levels s.depth before rest).1)
          (scanRest levels s.depth before rest).2 m'
    | .misfit column =>
      m.lexLine line =
        .ok (.error ⟨.inconsistentDedent, ⟨line.number, column⟩, some line.text⟩) := by
  obtain ⟨htokens, hblocks, hbrackets, hcarries⟩ := h
  rw [hcarry] at hcarries
  cases hcarries with
  | nothing hcontinued hopened =>
    have hstart := lineStart_start s.levels line.text
    have hcovers := start_covers s.levels line.text
    rw [lexLine_of_start hopened (hbrackets.trans hdepth) hcontinued (hblocks ▸ hlevels), hblocks,
      boundedStart_eq _ hwidth]
    cases hcase : Indentation.start s.levels line.text with
    | noCode more =>
      rw [hcase] at hstart hcovers
      change Piece.cover more = line.text at hcovers
      refine ⟨_, rfl, ?_, hblocks, hbrackets, ?_⟩
      · exact tokens_begin htokens hpast hline m.levels (by rwa [hcovers]) (by rwa [hcovers])
          (not_feed_inside hstart hfeed)
      · rw [hcarry]
        exact .nothing hcontinued hopened
    | code before levels rest =>
      rw [hcase] at hstart
      simp only [← hbrackets]
      exact follows_begin htokens hpast hcontinued hopened hline hfeed hstart (by omega)
    | misfit column =>
      rw [hcase] at hstart
      have hcolumn : column < UInt32.size := by
        cases hstart with
        | misfit blanks c rest hblanks hline =>
          have hlength := congrArg List.length hline
          rw [List.length_append] at hlength
          omega
      simp only [bind, Except.bind, lexBehind, word_of_lt hcolumn]

/-- A line that goes on with a statement is read as it is cut. -/
theorem follows_lexLine_within (h : Follows table pieces s m)
    (hcarry : s.carry = .continuation ∨ s.carry = .nothing ∧ s.depth ≠ 0)
    (hfeed : '\n' ∉ line.text.dropLast) (hline : table[line.number - 1]? = some line.text)
    (hpast : Position.origin.past (Piece.cover pieces) = ⟨line.number, 0⟩)
    (hbound : s.depth + line.text.length < UInt32.size) :
    ∃ m', m.lexLine line = .ok (.ok m') ∧
      Follows table (pieces ++ (scanRest s.levels s.depth [] line.text).1)
        (scanRest s.levels s.depth [] line.text).2 m' := by
  obtain ⟨htokens, hlevels, hdepth, hcarries⟩ := h
  have hwithin : m.opened = none ∧ (m.depth ≠ 0 ∨ m.continued) := by
    rcases hcarry with hcarry | ⟨hcarry, hopen⟩
    · rw [hcarry] at hcarries
      cases hcarries with
      | continuation hcontinued hopened => exact ⟨hopened, Or.inr hcontinued⟩
    · rw [hcarry] at hcarries
      cases hcarries with
      | nothing hcontinued hopened => exact ⟨hopened, Or.inl (hdepth ▸ hopen)⟩
  rw [lexLine_within hwithin.1 hwithin.2]
  simp only [scanRest, List.nil_append, ← hlevels, ← hdepth]
  rw [← hdepth] at hbound
  exact follows_scanLine (m := { m with continued := false }) (At.start line.text) htokens hpast
    rfl hwithin.1 hline hfeed hbound

/-- A line is read as it is cut, as long as no counter is exhausted on it. -/
theorem follows_lexLine (line : Line) (h : Follows table pieces s m) (hlevels : s.levels ≠ [])
    (hfeed : '\n' ∉ line.text.dropLast) (hne : line.text ≠ [])
    (hline : table[line.number - 1]? = some line.text)
    (hpast : (Position.origin.past (Piece.cover pieces)).past s.carry.text = ⟨line.number, 0⟩)
    (hnarrow : Narrow s line.text) (hbound : s.depth + line.text.length < UInt32.size) :
    match cutLine s line.text with
    | .ok (more, next) =>
      ∃ m', m.lexLine line = .ok (.ok m') ∧ Follows table (pieces ++ more) next m'
    | .error column =>
      m.lexLine line =
        .ok (.error ⟨.inconsistentDedent, ⟨line.number, column⟩, some line.text⟩) := by
  unfold cutLine
  cases hcarry : s.carry with
  | string d text =>
    rw [hcarry] at hpast
    exact follows_lexLine_of_string h hcarry hfeed hne hline hpast hbound
  | continuation =>
    rw [hcarry] at hpast
    exact follows_lexLine_within h (Or.inl hcarry) hfeed hline hpast hbound
  | nothing =>
    rw [hcarry] at hpast
    simp only
    by_cases hdepth : s.depth = 0
    · have hstart := follows_lexLine_of_start h hcarry hdepth hlevels hfeed hline hpast
        (hnarrow hcarry hdepth) (by omega)
      rw [if_pos hdepth]
      cases hcase : Indentation.start s.levels line.text <;> rw [hcase] at hstart <;> exact hstart
    · rw [if_neg hdepth]
      exact follows_lexLine_within h (Or.inr ⟨hcarry, hdepth⟩) hfeed hline hpast hbound

/-- A line that is not narrow is a fault where counters are checked. -/
theorem lexLine_of_not_narrow (line : Line) (h : Follows table pieces s m) (hlevels : s.levels ≠ [])
    (hchecked : m.checked = true) (hnarrow : ¬ Narrow s line.text) :
    m.lexLine line = .error .overflow := by
  simp only [Narrow, not_forall, Nat.not_lt] at hnarrow
  obtain ⟨hcarry, hdepth, blanks, hblanks, hwidth⟩ := hnarrow
  obtain ⟨-, hblocks, hbrackets, hcarries⟩ := h
  rw [hcarry] at hcarries
  cases hcarries with
  | nothing hcontinued hopened =>
    rw [lexLine_of_start hopened (hbrackets.trans hdepth) hcontinued (hblocks ▸ hlevels),
      boundedStart, hchecked,
      boundedWidth_of_exhausted (by decide) ((List.mem_inits _ _).1 hblanks) hwidth]
    rfl

end Machine

end ByteLexer

end SourceTokens
