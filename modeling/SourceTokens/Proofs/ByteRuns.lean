import Mathlib.Data.List.Infix
import SourceTokens.Proofs.ByteSteps
import SourceTokens.Proofs.Extents
import SourceTokens.Proofs.NoiseLines
import SourceTokens.Proofs.Runs

/-!
The lexer by byte offsets along a line. Every step of a scan advances, so a scan ends, unless a
counter is exhausted that is checked, and it gives what a scan by characters gives while the open
brackets can be counted. The start of a line is read as it is by characters, except that its width
is counted in 32 bits.
-/

namespace SourceTokens.ByteLexer

open StringLiteral LineScan Segmentation Utf8

def Line.tokens (line : Line) (before : Text) : List Piece → List Token
  | [] => []
  | .gap text :: later => line.tokens (before ++ text) later
  | .lexeme kind text :: later => line.token kind before text :: line.tokens (before ++ text) later

namespace Machine

variable {line : Line} {before rest : Text} {pos : Nat} {m : Machine}

def scanned (m : Machine) (line : Line) (before : Text) (r : Result) : Machine where
  checked := m.checked
  tokens := m.tokens ++ line.tokens before r.pieces
  levels := m.levels
  depth := r.depth
  continued := m.continued || decide (r.carry = .continuation)
  opened := match r.carry with
    | .string d text =>
      some ⟨⟨line.number, word (before ++ Piece.cover r.pieces).length⟩, text, line.text, d⟩
    | _ => m.opened

theorem depth_took {p : Piece} {depth : Nat} (h : m.boundedDepth p = .ok depth) (line : Line)
    (before : Text) : (m.took line before depth p).depth = depth := by
  cases p with
  | gap => exact Except.ok.inj h
  | lexeme => rfl

theorem scanned_nil (m : Machine) (line : Line) (before : Text) :
    m.scanned line before ⟨[], m.depth, .nothing⟩ = m := by
  simp [scanned, Line.tokens]

/-- What is scanned behind a piece is scanned from the machine that took the piece. -/
theorem scanned_cons (m : Machine) (line : Line) (before : Text) (depth : Nat) (p : Piece)
    (r : Result) :
    m.scanned line before (r.cons p) =
      (m.took line before depth p).scanned line (before ++ p.text) r := by
  cases p <;>
    simp only [scanned, Result.cons, Line.tokens, took, add, Piece.cover_cons, Piece.text,
      List.append_assoc, List.singleton_append] <;> rfl

/-- The blanks at a front add nothing but their length. -/
theorem scanned_blanks (m : Machine) (line : Line) (before rest : Text) :
    m.scanned line before (scan m.depth rest) =
      m.scanned line (before ++ rest.takeWhile Text.isBlank)
        (scan m.depth (rest.dropWhile Text.isBlank)) := by
  cases rest with
  | nil => rw [List.takeWhile_nil, List.append_nil, List.dropWhile_nil]
  | cons c later =>
    by_cases hc : Text.isBlank c
    · have htaken : Taken m.depth c later _ _ := .blanks hc
      rw [scan_of_piece (front_of_taken htaken), scanned_cons m line before m.depth]
      rfl
    · rw [List.takeWhile_cons_of_neg hc, List.append_nil, List.dropWhile_cons_of_neg hc]

section Fronts

variable {c : Char}

theorem scanned_continuation (m : Machine) (line : Line) (before : Text)
    (h : front m.depth c rest = .continuation) :
    m.scanned line before (scan m.depth (c :: rest)) = { m with continued := true } := by
  rw [scan, List.length_cons, scanUpTo, h]
  simp [scanned, Line.tokens]

theorem scanned_unclosed {d : Delimiter} (m : Machine) (line : Line) (before : Text)
    (h : front m.depth c rest = .unclosed d) :
    m.scanned line before (scan m.depth (c :: rest)) = m.leaveOpen line before (c :: rest) d := by
  rw [scan, List.length_cons, scanUpTo, h]
  simp [scanned, Line.tokens, leaveOpen, Piece.cover]

theorem scanned_piece {p : Piece} {after : Text} {m : Machine} (line : Line) (before : Text)
    (h : front m.depth c rest = .piece p after) :
    m.scanned line before (scan m.depth (c :: rest)) =
      (m.took line before (depthAfter m.depth p) p).scanned line (before ++ p.text)
        (scan (depthAfter m.depth p) after) := by
  rw [scan_of_piece h, ← scanned_cons]

end Fronts

theorem scanLine_end (m : Machine) (line : Line) :
    m.scanLine line (byteCount line.text) = .ok m := by
  rw [scanLine, if_neg (Nat.lt_irrefl _)]

theorem scanLine_finished {next : Machine} (hlt : pos < byteCount line.text)
    (h : m.step line pos = .ok (.finished next)) : m.scanLine line pos = .ok next := by
  rw [scanLine, if_pos hlt, h]

theorem scanLine_goesOn {next : Machine} {stop : Nat} (hlt : pos < byteCount line.text)
    (h : m.step line pos = .ok (.goesOn next stop)) (hstop : pos < stop) :
    m.scanLine line pos = next.scanLine line stop := by
  rw [scanLine, if_pos hlt, h]
  exact if_pos hstop

theorem scanLine_piece {p : Piece} {after text : Text} {start : Nat}
    (hlt : pos < byteCount line.text)
    (h : m.step line pos = Step.ofFront m line start before text (.piece p after))
    (hstop : pos < start + byteCount p.text) :
    m.scanLine line pos = m.boundedDepth p >>= fun depth =>
      (m.took line before depth p).scanLine line (start + byteCount p.text) := by
  rw [Step.ofFront] at h
  rw [scanLine, if_pos hlt, h]
  cases m.boundedDepth p with
  | error fault => rfl
  | ok depth => exact if_pos hstop

/-- Whether a machine has the blocks of another one and treats its counters alike. -/
structure Keeps (m m' : Machine) : Prop where
  levels_eq : m'.levels = m.levels
  checked_eq : m'.checked = m.checked

theorem Keeps.trans {m' m'' : Machine} (h : m.Keeps m') (h' : m'.Keeps m'') : m.Keeps m'' :=
  ⟨h'.levels_eq.trans h.levels_eq, h'.checked_eq.trans h.checked_eq⟩

theorem keeps_took (m : Machine) (line : Line) (before : Text) (depth : Nat) (p : Piece) :
    m.Keeps (m.took line before depth p) := by
  cases p <;> exact ⟨rfl, rfl⟩

/-- A scan from an offset ends. While the number of brackets can be counted, it gives what a scan by
characters gives. -/
theorem gives_scanLine (hfeed : '\n' ∉ line.text.dropLast) (m : Machine)
    (h : At line.text pos before rest) :
    Gives m.checked m.Keeps (m.scanLine line pos) ∧
      (m.depth + rest.length < UInt32.size →
        m.scanLine line pos = .ok (m.scanned line before (scan m.depth rest))) := by
  induction hn : rest.length using Nat.strong_induction_on generalizing rest pos before m with
  | h n ih =>
    subst hn
    have hstep := step_eq m h hfeed
    have hsplit := List.takeWhile_append_dropWhile (p := Text.isBlank) (l := rest)
    rw [scanned_blanks]
    generalize rest.takeWhile Text.isBlank = blanks at *
    generalize rest.dropWhile Text.isBlank = code at *
    subst hsplit
    have hbehind := h.advance
    rcases Nat.lt_or_ge pos (byteCount line.text) with hlt | hge
    · cases code with
      | nil =>
        rw [scanLine_finished hlt hstep, scan, List.length_nil, scanUpTo, scanned_nil]
        exact ⟨.result m ⟨rfl, rfl⟩, fun _ => rfl⟩
      | cons c after =>
        simp only at hstep
        cases hfront : front m.depth c after with
        | continuation =>
          rw [hfront] at hstep
          rw [scanLine_finished hlt hstep, scanned_continuation m line _ hfront]
          exact ⟨.result _ ⟨rfl, rfl⟩, fun _ => rfl⟩
        | unclosed d =>
          rw [hfront] at hstep
          rw [scanLine_goesOn hlt hstep hlt, scanLine_end, scanned_unclosed m line _ hfront]
          exact ⟨.result _ ⟨rfl, rfl⟩, fun _ => rfl⟩
        | piece p behind =>
          rw [hfront] at hstep
          have hcovers := front_covers m.depth c after
          rw [hfront] at hcovers
          obtain ⟨hcover, hne⟩ := hcovers
          have hpos := byteCount_pos hne
          have hless := List.length_pos_iff.2 hne
          rw [scanLine_piece hlt hstep (by omega), scanned_piece line _ hfront]
          rw [← hcover] at hbehind ih ⊢
          have hlater := fun depth => ih behind.length (by simp only [List.length_append]; omega)
            (m.took line (before ++ blanks) depth p) hbehind.advance rfl
          -- Whether the brackets can be counted is not known for the first part, and is for the second.
          refine ⟨(gives_boundedDepth m p).bind fun depth _ => ?_, fun hbound => ?_⟩
          · have htook := keeps_took m line (before ++ blanks) depth p
            obtain ⟨hgives, -⟩ := hlater depth
            rw [htook.checked_eq] at hgives
            exact hgives.mono fun _ => htook.trans
          · simp only [List.length_append] at hbound
            have hdepth := boundedDepth_eq (m := m) (by omega) p
            have hle := depthAfter_le m.depth p
            obtain ⟨-, hsame⟩ := hlater (depthAfter m.depth p)
            rw [depth_took hdepth] at hsame
            rw [hdepth]
            exact hsame (by omega)
    · have hnone : blanks ++ code = [] := by
        have hcount := h.count_line
        by_contra hne
        have hpos := byteCount_pos hne
        omega
      obtain ⟨rfl, rfl⟩ := List.append_eq_nil_iff.1 hnone
      rw [scanLine, if_neg (Nat.not_lt.2 hge)]
      exact ⟨.result m ⟨rfl, rfl⟩, fun _ => congrArg Except.ok (scanned_nil m line _).symm⟩

end Machine

def boundedWidth (checked : Bool) (column : Nat) (blanks : Text) : Except Fault Nat :=
  blanks.foldlM (fun column c => count checked (Indentation.columnAfter column c)) column

theorem gives_boundedWidth (checked : Bool) (column : Nat) (blanks : Text) :
    Gives checked (fun _ => True) (boundedWidth checked column blanks) := by
  unfold boundedWidth
  induction blanks generalizing column with
  | nil => exact .result column trivial
  | cons c rest ih =>
    rw [List.foldlM_cons]
    exact (gives_count checked _).bind fun next _ => ih next

/-- The width is the one that is not counted, if no column on the way is too large. -/
theorem boundedWidth_eq {blanks : Text}
    (h : ∀ front ∈ blanks.inits, Indentation.width front < UInt32.size) (checked : Bool) :
    boundedWidth checked 0 blanks = .ok (Indentation.width blanks) := by
  have hfold : ∀ (blanks : Text) (column : Nat),
      (∀ front, front <+: blanks → front.foldl Indentation.columnAfter column < UInt32.size) →
        boundedWidth checked column blanks =
          .ok (blanks.foldl Indentation.columnAfter column) := by
    intro blanks
    induction blanks with
    | nil => exact fun _ _ => rfl
    | cons c rest ih =>
      intro column hall
      have hnext : Indentation.columnAfter column c < UInt32.size :=
        hall [c] (List.prefix_append [c] rest)
      have hlater := ih (Indentation.columnAfter column c) fun front hfront =>
        hall (c :: front) (List.cons_prefix_cons.2 ⟨rfl, hfront⟩)
      rw [List.foldl_cons, ← hlater, boundedWidth, List.foldlM_cons, count_of_lt hnext]
      rfl
  exact hfold blanks 0 fun front hfront => h front ((List.mem_inits _ _).2 hfront)

/-- A column on the way that is too large is a fault where counters are checked. -/
theorem boundedWidth_of_exhausted {column : Nat} {front blanks : Text}
    (hcolumn : column < UInt32.size) (hfront : front <+: blanks)
    (h : UInt32.size ≤ front.foldl Indentation.columnAfter column) :
    boundedWidth true column blanks = .error .overflow := by
  induction blanks generalizing column front with
  | nil =>
    rw [List.prefix_nil.1 hfront, List.foldl_nil] at h
    omega
  | cons c rest ih =>
    cases front with
    | nil =>
      rw [List.foldl_nil] at h
      omega
    | cons d more =>
      obtain ⟨rfl, hmore⟩ := List.cons_prefix_cons.1 hfront
      rw [List.foldl_cons] at h
      rw [boundedWidth, List.foldlM_cons]
      rcases Nat.lt_or_ge (Indentation.columnAfter column d) UInt32.size with hnext | hnext
      · rw [count_of_lt hnext]
        exact ih hnext hmore h
      · rw [count_of_exhausted hnext]
        rfl

theorem indentation_eq {bytes : List UInt8} {pos : Nat} {rest : Text} (checked : Bool)
    (column : Nat) (h : RestAt bytes pos rest) :
    indentation checked bytes column pos = do
      let width ← boundedWidth checked column (rest.takeWhile Text.isBlank)
      return (width, pos + byteCount (rest.takeWhile Text.isBlank)) := by
  induction rest generalizing column pos with
  | nil =>
    have hnone : asciiAt bytes pos = none := h.asciiAt_eq
    rw [indentation]
    split
    · rfl
    · rename_i heq
      rw [hnone] at heq
      cases heq
  | cons c later ih =>
    rw [indentation]
    by_cases hc : Text.isBlank c
    · have hascii := ascii_of_isBlank hc
      have hhead := (h.asciiAt_eq_some_iff hascii).2 rfl
      split
      · rename_i heq
        rw [hhead] at heq
        cases heq
      · rename_i d heq
        obtain rfl : c = d := Option.some.inj (hhead.symm.trans heq)
        rw [if_pos hc, List.takeWhile_cons_of_pos hc, boundedWidth, List.foldlM_cons,
          byteCount_ascii hascii, ← Nat.add_assoc, bind_assoc]
        exact bind_congr fun next => ih next (h.next hascii)
    · rw [List.takeWhile_cons_of_neg hc]
      split
      · rfl
      · rename_i d heq
        have hd := h.asciiAt_eq.symm.trans heq
        rw [List.head?_cons, Option.filter_some] at hd
        split at hd
        · obtain rfl := Option.some.inj hd
          rw [if_neg hc]
          rfl
        · cases hd

theorem indentation_line (checked : Bool) (text : Text) :
    indentation checked (encode text) 0 0 = do
      let width ← boundedWidth checked 0 (text.takeWhile Text.isBlank)
      return (width, byteCount (text.takeWhile Text.isBlank)) := by
  rw [indentation_eq checked 0 (At.start text).restAt, Nat.zero_add]

def startOfColumn (levels : List Nat) (column : Nat) (blanks rest : Text) : Indentation.Start :=
  if Indentation.innermost levels < column then
    .code [.lexeme .indent blanks] (column :: levels) rest
  else if column < Indentation.innermost levels then
    if levels.contains column then
      .code (.gap blanks :: (levels.takeWhile (column < ·)).map fun _ => .lexeme .dedent [])
        (levels.dropWhile (column < ·)) rest
    else .misfit blanks.length
  else .code [.gap blanks] levels rest

def startAtColumn (levels : List Nat) (column : Nat) (line : Text) : Indentation.Start :=
  let blanks := line.takeWhile Text.isBlank
  match line.dropWhile Text.isBlank with
  | [] => .noCode [.gap blanks]
  | c :: rest =>
    if c = '#' then
      let comment := Text.dropBreaks (c :: rest)
      .noCode [.gap blanks, .lexeme .comment comment,
        .lexeme .lineBreak ((c :: rest).drop comment.length)]
    else if Text.isBreak c then .noCode [.gap blanks, .lexeme .lineBreak (c :: rest)]
    else startOfColumn levels column blanks (c :: rest)

def boundedStart (checked : Bool) (levels : List Nat) (line : Text) :
    Except Fault Indentation.Start := do
  let column ← boundedWidth checked 0 (line.takeWhile Text.isBlank)
  return startAtColumn levels column line

theorem boundedStart_eq {line : Text} (levels : List Nat)
    (h : ∀ blanks ∈ (line.takeWhile Text.isBlank).inits, Indentation.width blanks < UInt32.size)
    (checked : Bool) : boundedStart checked levels line = .ok (Indentation.start levels line) := by
  rw [boundedStart, boundedWidth_eq h]
  rfl

/-- The line break stands behind all that can be a comment. -/
theorem At.behind_comment {text before rest : Text} {pos : Nat} (h : At text pos before rest) :
    At text (pos + byteCount (Text.dropBreaks rest)) (before ++ Text.dropBreaks rest)
      (rest.drop (Text.dropBreaks rest).length) := by
  rw [← Text.dropBreaks_append_drop rest] at h
  exact h.advance

namespace Machine

variable {line : Line} {before rest : Text} {pos : Nat}

theorem closeBlocks_eq {column : Nat} {levels : List Nat} (hmem : column ∈ levels) (m : Machine)
    (hlevels : m.levels = levels) (h : At line.text pos before rest) :
    closeBlocks line pos column levels m = .ok { m with
      levels := levels.dropWhile (column < ·)
      tokens := m.tokens ++
        (levels.takeWhile (column < ·)).map fun _ => line.token .dedent before [] } := by
  induction levels generalizing m with
  | nil => cases hmem
  | cons level later ih =>
    rw [closeBlocks]
    by_cases hlt : column < level
    · have hlater : column ∈ later := by
        rcases List.mem_cons.1 hmem with rfl | hlater
        · omega
        · exact hlater
      have hpush := push_eq { m with levels := later } .dedent h (List.nil_append rest) rfl
      rw [byteCount_nil, Nat.add_zero] at hpush
      rw [if_pos hlt, hpush, List.takeWhile_cons_of_pos (by simpa using hlt),
        List.dropWhile_cons_of_pos (by simpa using hlt)]
      simp only [bind, Except.bind]
      rw [ih hlater _ rfl]
      simp only [add, List.map_cons, List.append_assoc, List.singleton_append]
    · rw [if_neg hlt, List.takeWhile_cons_of_neg (by simpa using hlt),
        List.dropWhile_cons_of_neg (by simpa using hlt), ← hlevels, List.map_nil, List.append_nil]

def begin (m : Machine) (line : Line) (pieces : List Piece) (levels : List Nat) : Machine :=
  { m with levels := levels, tokens := m.tokens ++ line.tokens [] pieces }

def ofStart (m : Machine) (line : Line) :
    Indentation.Start → Except LexicalError (Machine × Option Nat)
  | .noCode pieces => .ok (m.begin line pieces m.levels, none)
  | .code pieces levels _ =>
    .ok (m.begin line pieces levels, some (byteCount (Piece.cover pieces)))
  | .misfit column =>
    .error ⟨.inconsistentDedent, ⟨line.number, word column⟩, some line.text⟩

theorem tokens_dedents (line : Line) (before : Text) (levels : List Nat) :
    line.tokens before (levels.map fun _ => .lexeme .dedent []) =
      levels.map fun _ => line.token .dedent before [] := by
  induction levels with
  | nil => rfl
  | cons level later ih =>
    rw [List.map_cons, Line.tokens, List.append_nil, ih, List.map_cons]

/-- Blocks are opened and closed as they are by characters. -/
theorem lexBlocks_eq {m : Machine} (column : Nat) (hm : m.levels ≠ [])
    (h : At line.text pos before rest) :
    m.lexBlocks line column pos =
      .ok (m.ofStart line (startOfColumn m.levels column before rest)) := by
  obtain ⟨top, more, hlevels⟩ := List.exists_cons_of_ne_nil hm
  have htop : Indentation.innermost m.levels = top := by rw [hlevels]; rfl
  have hcover : ∀ p : Piece, Piece.cover [p] = p.text := fun p => by simp [Piece.cover]
  have hpos : pos = byteCount before := h.count_eq.symm
  unfold lexBlocks startOfColumn
  rw [htop]
  simp only [hlevels]
  by_cases hdeeper : top < column
  · have hpush := push_eq { m with levels := column :: top :: more } .indent (At.start line.text)
      h.append_eq (hpos.trans (Nat.zero_add _).symm)
    rw [if_pos hdeeper, if_pos hdeeper, hpush]
    simp only [ofStart, begin, hcover, Piece.text, hpos]
    rfl
  · rw [if_neg hdeeper, if_neg hdeeper]
    by_cases hshallower : column < top
    · rw [if_pos hshallower, if_pos hshallower]
      by_cases hopen : (top :: more).contains column
      · have hclose := closeBlocks_eq (List.contains_iff_mem.1 hopen) m hlevels h
        rw [if_pos hopen, if_pos hopen, hclose]
        simp only [ofStart, begin, Piece.cover_cons, Indentation.cover_dedents, Piece.text,
          List.append_nil, Line.tokens, List.nil_append, tokens_dedents, hpos]
        rfl
      · rw [if_neg hopen, if_neg hopen, Line.position_eq h]
        rfl
    · rw [if_neg hshallower, if_neg hshallower, ofStart, begin, hcover, hpos, ← hlevels]
      simp only [Line.tokens, List.append_nil]
      rfl

/-- The start of a line is read as it is by characters, but for the size of the widths. -/
theorem lexIndentation_eq {m : Machine} (line : Line) (hm : m.levels ≠ []) :
    m.lexIndentation line = do
      let start ← boundedStart m.checked m.levels line.text
      return m.ofStart line start := by
  rw [lexIndentation, indentation_line, boundedStart]
  cases boundedWidth m.checked 0 (line.text.takeWhile Text.isBlank) with
  | error fault => rfl
  | ok column =>
    have hsplit := List.takeWhile_append_dropWhile (p := Text.isBlank) (l := line.text)
    unfold startAtColumn
    simp only [bind, Except.bind, pure, Except.pure]
    generalize line.text.takeWhile Text.isBlank = blanks at *
    generalize line.text.dropWhile Text.isBlank = code at *
    have hbehind : At line.text (byteCount blanks) blanks code := ⟨hsplit, rfl⟩
    have hcount := hbehind.count_line
    cases code with
    | nil =>
      rw [byteCount_nil, Nat.add_zero] at hcount
      rw [if_pos hcount.symm]
      simp only [ofStart, begin, Line.tokens, List.append_nil]
    | cons c rest =>
      have hlt := hbehind.lt_count
      have hne : byteCount blanks ≠ byteCount line.text := Nat.ne_of_lt hlt
      obtain ⟨b, hb⟩ : ∃ b, (encode line.text)[byteCount blanks]? = some b :=
        ⟨_, List.getElem?_eq_getElem hlt⟩
      have hascii : ∀ {a : Char}, a.toNat < 0x80 → (asciiOf? b = some a ↔ c = a) := by
        intro a ha
        have hiff := hbehind.restAt.asciiAt_eq_some_iff ha
        rw [asciiAt, hb, Option.bind_some, List.head?_cons, Option.some.injEq] at hiff
        exact hiff
      rw [if_neg hne]
      simp only [hb, hascii (show '#'.toNat < 0x80 by decide),
        hascii (show '\r'.toNat < 0x80 by decide), hascii (show '\n'.toNat < 0x80 by decide)]
      by_cases hcomment : c = '#'
      · rw [if_pos hcomment, if_pos hcomment, hbehind.splitAt_eq]
        have hafter := hbehind.behind_comment
        simp only [push_eq m .comment hbehind (Text.dropBreaks_append_drop (c :: rest)) rfl]
        rw [push_eq _ .lineBreak hafter (List.append_nil _) hafter.count_line]
        simp only [ofStart, begin, add, Line.tokens, List.append_assoc]
        rfl
      · rw [if_neg hcomment, if_neg hcomment]
        have hbreaks : Text.isBreak c ↔ c = '\r' ∨ c = '\n' := by simp [Text.isBreak]
        by_cases hbreak : c = '\r' ∨ c = '\n'
        · rw [if_pos hbreak, if_pos (hbreaks.2 hbreak),
            push_eq m .lineBreak hbehind (List.append_nil _) hcount]
          simp only [ofStart, begin, add, Line.tokens]
          rfl
        · rw [if_neg hbreak, if_neg (hbreaks.not.2 hbreak)]
          exact lexBlocks_eq column hm hbehind

end Machine

end SourceTokens.ByteLexer
