import SourceTokens.Proofs.ByteLines

/-!
The lexer by byte offsets over a whole source. An exhausted counter is the only fault that it can
meet, whatever the source. When the counters suffice it meets none, and its result is that of the cut
by characters.
-/

namespace SourceTokens

open Segmentation

namespace Segmentation

open LineScan StringLiteral

/-- No more brackets are opened on a line than it has characters. -/
theorem depth_le_of_cutLine {s next : State} {line : Text} {pieces : List Piece}
    (h : cutLine s line = .ok (pieces, next)) : next.depth ≤ s.depth + line.length := by
  have hscan : ∀ before rest : Text, before ++ rest = line →
      (scan s.depth rest).depth ≤ s.depth + line.length := by
    intro before rest happend
    have hdepth := depth_scan_le s.depth rest
    rw [← happend, List.length_append]
    omega
  cases lineCut_of_cutLine h with
  | closes d text body rest hcarry hsplit => exact hscan body rest (splitAtCloser_append hsplit)
  | givesUp => exact Nat.le_add_right _ _
  | staysOpen => exact Nat.le_add_right _ _
  | noCode => exact Nat.le_add_right _ _
  | code before levels rest hcarry hdepth hstart =>
    have hcovers := Indentation.start_covers s.levels line
    rw [Indentation.start_eq_of_lineStart hstart] at hcovers
    exact hscan (Piece.cover before) rest hcovers
  | within => exact hscan [] line rfl

end Segmentation

namespace ByteLexer

/-- Whether lines that are cut from a state are narrow, as far as they can be cut. -/
def NarrowLines (s : State) (later : List Text) : Prop :=
  ∀ above line below pieces next, later = above ++ line :: below →
    cutLines s above = .ok (pieces, next) → Narrow next line

theorem narrowLines_cons {s : State} {line : Text} {later : List Text} :
    NarrowLines s (line :: later) ↔
      Narrow s line ∧ ∀ pieces next, cutLine s line = .ok (pieces, next) →
        NarrowLines next later := by
  constructor
  · intro h
    refine ⟨h [] line later [] s rfl rfl, fun pieces next hcut => ?_⟩
    rintro above other below more last rfl habove
    refine h (line :: above) other below (pieces ++ more) last rfl ?_
    simp only [cutLines, hcut, habove]
  · rintro ⟨hfirst, hlater⟩ above other below pieces last hsplit habove
    cases above with
    | nil =>
      cases hsplit
      cases habove
      exact hfirst
    | cons head above =>
      cases hsplit
      obtain ⟨front, next, back, -, hcut, hback⟩ := exists_cutLine_of_cutLines habove
      exact hlater front next hcut above other below back last rfl hback

/-- Whether counters of 32 bits suffice for the indentation of a source and for the places behind it.
The end lies one line below the last line, and one column behind it where a statement has to be
ended. -/
structure Fits (source : Text) : Prop where
  narrow : NarrowLines {} (Text.lines source)
  below : ∀ pieces s, cutLines {} (Text.lines source) = .ok (pieces, s) →
    (Text.lines source).length + 1 < UInt32.size
  last : ∀ pieces s, cutLines {} (Text.lines source) = .ok (pieces, s) → s.carry = .nothing →
    s.depth = 0 → needsNewline ((Text.lines source).getLastD []) →
      ((Text.lines source).getLastD []).length + 1 < UInt32.size

theorem fits_iff {source : Text} {pieces : List Piece} {s : State}
    (hcut : cutLines {} (Text.lines source) = .ok (pieces, s)) :
    Fits source ↔ NarrowLines {} (Text.lines source) ∧ (Text.lines source).length + 1 < UInt32.size ∧
      (s.carry = .nothing → s.depth = 0 → needsNewline ((Text.lines source).getLastD []) →
        ((Text.lines source).getLastD []).length + 1 < UInt32.size) := by
  constructor
  · exact fun h => ⟨h.narrow, h.below pieces s hcut, h.last pieces s hcut⟩
  · rintro ⟨hnarrow, hbelow, hlast⟩
    refine ⟨hnarrow, fun _ _ _ => hbelow, fun pieces' s' hcut' => ?_⟩
    cases hcut.symm.trans hcut'
    exact hlast

/-- It is enough that the lines can be counted, and the columns of the last line and of all blanks at
the beginning of a line. -/
theorem Fits.of_bounds {source : Text} (hlines : (Text.lines source).length + 1 < UInt32.size)
    (hlast : ((Text.lines source).getLastD []).length + 1 < UInt32.size)
    (hwidth : ∀ line ∈ Text.lines source, ∀ blanks ∈ (line.takeWhile Text.isBlank).inits,
      Indentation.width blanks < UInt32.size) : Fits source where
  narrow := by
    intro above line below pieces s hsplit _ _ _
    exact hwidth line (by rw [hsplit]; simp)
  below := fun _ _ _ => hlines
  last := fun _ _ _ _ _ _ => hlast

namespace Machine

/-- Lines are read to their ends, and a block is open behind them. -/
theorem gives_lexLines {later : List Text} (hfeed : ∀ text ∈ later, '\n' ∉ text.dropLast)
    (m : Machine) (number : Nat) (hlevels : m.levels ≠ []) :
    Gives m.checked
      (fun r => ∀ m' n, r = .ok (m', n) → m'.levels ≠ [] ∧ m'.checked = m.checked)
      (m.lexLines number later) := by
  induction later generalizing m number with
  | nil =>
    refine .result _ ?_
    rintro _ _ ⟨⟩
    exact ⟨hlevels, rfl⟩
  | cons text later ih =>
    obtain ⟨hfirst, hlater⟩ := List.forall_mem_cons.1 hfeed
    rw [lexLines]
    refine (gives_count m.checked _).bind fun number _ => ?_
    refine (gives_lexLine ⟨text, number⟩ hfirst hlevels).bind fun r hready => ?_
    cases r with
    | error e => exact .result _ nofun
    | ok next =>
      obtain ⟨hnext, hchecked⟩ := hready
      rw [← hchecked]
      exact ih hlater next number hnext

theorem gives_supplyNewline (m : Machine) (number : Nat) (last : Text) :
    Gives m.checked (fun _ => True) (m.supplyNewline number last) := by
  unfold supplyNewline
  split
  · exact (gives_count m.checked _).bind fun _ _ => .result _ trivial
  · exact .result _ trivial

theorem gives_finish (m : Machine) (number : Nat) (last : Text) :
    Gives m.checked (fun _ => True) (m.finish number last) := by
  refine (gives_count m.checked _).bind fun below _ => ?_
  cases m.opened with
  | some s => exact .result _ trivial
  | none =>
    simp only
    split
    · exact .result _ trivial
    · exact (gives_supplyNewline m number last).bind fun _ _ => .result _ trivial

variable {source : Text} {pieces : List Piece} {s : State} {m : Machine}

theorem getElem?_line {above below : List Text} {text : Text}
    (hlines : Text.lines source = above ++ text :: below) :
    (Text.lines source)[above.length]? = some text := by
  rw [hlines, List.getElem?_append_right (Nat.le_refl _), Nat.sub_self, List.getElem?_cons_zero]

section Lines

variable {above below : List Text} {text : Text} (hlength : source.length < UInt32.size)

include hlength

theorem count_number (hlines : Text.lines source = above ++ text :: below) (checked : Bool) :
    count checked (above.length + 1) = .ok (above.length + 1) := by
  have hcount := Text.length_lines_le source
  rw [hlines, List.length_append, List.length_cons] at hcount
  exact count_of_lt (by omega)

/-- A line below others is read as it is cut. -/
theorem follows_line (hlines : Text.lines source = above ++ text :: below)
    (hcut : cutLines {} above = .ok (pieces, s))
    (h : Follows (Text.lines source).toArray pieces s m)
    (hdepth : s.depth + text.length ≤ source.length) (hnarrow : Narrow s text) :
    match cutLine s text with
    | .ok (more, next) =>
      ∃ m', m.lexLine ⟨text, above.length + 1⟩ = .ok (.ok m') ∧
        Follows (Text.lines source).toArray (pieces ++ more) next m'
    | .error column =>
      m.lexLine ⟨text, above.length + 1⟩ =
        .ok (.error ⟨.inconsistentDedent, ⟨above.length + 1, column⟩, some text⟩) := by
  have hmem : text ∈ Text.lines source := by
    rw [hlines]
    exact List.mem_append_right _ List.mem_cons_self
  have hget : (Text.lines source).toArray[above.length]? = some text := by
    rw [List.getElem?_toArray, getElem?_line hlines]
  have hpast : (Position.origin.past (Piece.cover pieces)).past s.carry.text =
      ⟨above.length + 1, 0⟩ := by
    rw [← Position.past_append, cutLines_cover hcut, Nat.add_comm]
    exact Text.past_flatten 1 (Text.whole_of_lines hlines).1
  have hbound : s.depth + text.length < UInt32.size := Nat.lt_of_le_of_lt hdepth hlength
  exact follows_lexLine ⟨text, above.length + 1⟩ h (cutLines_nested hcut).ne_nil
    (Text.not_feed_of_mem_lines hmem) (Text.ne_nil_of_mem_lines hmem) hget hpast hnarrow hbound

omit hlength in
theorem cutLines_concat {more : List Piece} {next : State}
    (hcut : cutLines {} above = .ok (pieces, s)) (hnext : cutLine s text = .ok (more, next)) :
    cutLines {} (above ++ [text]) = .ok (pieces ++ more, next) := by
  rw [cutLines_append hcut]
  simp only [cutLines, hnext, List.append_nil]

/-- Lines below others are read as they are cut. -/
theorem follows_lexLines {later : List Text} (hlines : Text.lines source = above ++ later)
    (hcut : cutLines {} above = .ok (pieces, s))
    (h : Follows (Text.lines source).toArray pieces s m)
    (hdepth : s.depth + later.flatten.length ≤ source.length) (hnarrow : NarrowLines s later) :
    match cutLines s later with
    | .ok (more, last) =>
      ∃ m', m.lexLines above.length later = .ok (.ok (m', (Text.lines source).length)) ∧
        Follows (Text.lines source).toArray (pieces ++ more) last m'
    | .error p =>
      m.lexLines above.length later =
        .ok (.error ⟨.inconsistentDedent, p.down above.length,
          (Text.lines source)[(p.down above.length).line - 1]?⟩) := by
  induction later generalizing above pieces s m with
  | nil =>
    rw [List.append_nil] at hlines
    exact ⟨m, by rw [lexLines, hlines], by rwa [List.append_nil]⟩
  | cons text later ih =>
    rw [List.flatten_cons, List.length_append] at hdepth
    obtain ⟨hthis, hbelow⟩ := narrowLines_cons.1 hnarrow
    have hline := follows_line hlength hlines hcut h (by omega) hthis
    rw [cutLines, lexLines, count_number hlength hlines]
    cases hfirst : cutLine s text with
    | error column =>
      rw [hfirst] at hline
      simp only at hline
      simp only [hline, bind, Except.bind, Position.down, Nat.add_comm 1, Nat.add_sub_cancel,
        getElem?_line hlines]
      rfl
    | ok r =>
      obtain ⟨first, next⟩ := r
      rw [hfirst] at hline
      obtain ⟨m', hm', hfollows⟩ := hline
      have hsplit := hlines.trans (List.append_cons above text later)
      have hopened := depth_le_of_cutLine hfirst
      have hlater := ih hsplit (cutLines_concat hcut hfirst) hfollows (by omega)
        (hbelow first next hfirst)
      rw [List.length_append, List.length_singleton] at hlater
      simp only [hm', bind, Except.bind]
      cases hmore : cutLines next later with
      | error p =>
        rw [hmore] at hlater
        simp only [Position.down, Nat.add_assoc, Nat.add_comm 1] at hlater ⊢
        exact hlater
      | ok r =>
        simp only [hmore, List.append_assoc] at hlater
        exact hlater

/-- A line that is not narrow is a fault where counters are checked. -/
theorem lexLines_of_not_narrow {later : List Text} (hlines : Text.lines source = above ++ later)
    (hcut : cutLines {} above = .ok (pieces, s))
    (h : Follows (Text.lines source).toArray pieces s m) (hchecked : m.checked = true)
    (hdepth : s.depth + later.flatten.length ≤ source.length) (hnarrow : ¬ NarrowLines s later) :
    m.lexLines above.length later = .error .overflow := by
  induction later generalizing above pieces s m with
  | nil => exact absurd (fun _ _ _ _ _ hsplit => by simp at hsplit) hnarrow
  | cons text later ih =>
    rw [List.flatten_cons, List.length_append] at hdepth
    have hlevels := (cutLines_nested hcut).ne_nil
    rw [narrowLines_cons, not_and_or] at hnarrow
    rw [lexLines, count_number hlength hlines]
    by_cases hthis : Narrow s text
    · obtain ⟨first, next, hfirst, hbelow⟩ : ∃ first next,
          cutLine s text = .ok (first, next) ∧ ¬ NarrowLines next later := by
        simpa [hthis] using hnarrow
      have hline := follows_line hlength hlines hcut h (by omega) hthis
      rw [hfirst] at hline
      obtain ⟨m', hm', hfollows⟩ := hline
      have hstill : m'.checked = true := by
        have hmem : text ∈ Text.lines source := by simp [hlines]
        have hready := gives_lexLine ⟨text, above.length + 1⟩ (Text.not_feed_of_mem_lines hmem)
          (h.levels_eq ▸ hlevels)
        rw [hm'] at hready
        cases hready with
        | result _ hready => exact hready.2.trans hchecked
      have hsplit := hlines.trans (List.append_cons above text later)
      have hopened := depth_le_of_cutLine hfirst
      have hlater := ih hsplit (cutLines_concat hcut hfirst) hfollows
        hstill (by omega) hbelow
      rw [List.length_append, List.length_singleton] at hlater
      simp only [hm', bind, Except.bind]
      exact hlater
    · have hline := lexLine_of_not_narrow ⟨text, above.length + 1⟩ h hlevels hchecked hthis
      simp only [hline, bind, Except.bind]

end Lines

/-- What is supplied behind the last line is that of the cut. -/
theorem supplyNewline_eq {number : Nat} {last : Text}
    (h : needsNewline last → last.length + 1 < UInt32.size) :
    m.supplyNewline number last = .ok (if needsNewline last then
      [⟨.newline, [], ⟨number, last.length⟩, ⟨number, last.length + 1⟩, none⟩] else []) := by
  unfold supplyNewline
  split
  · rename_i hneeds
    have hcol := word_of_lt (Nat.lt_of_succ_lt (h hneeds))
    simp only [hcol, count_of_lt (h hneeds)]
    rfl
  · rfl

theorem finish_eq (hcut : cutLines {} (Text.lines source) = .ok (pieces, s))
    (h : Follows (Text.lines source).toArray pieces s m) (hfits : Fits source) :
    m.finish (Text.lines source).length ((Text.lines source).getLastD []) =
      .ok (SourceTokens.finish (Text.lines source) pieces s) := by
  obtain ⟨-, hbelow, hlast⟩ := (fits_iff hcut).1 hfits
  rw [finish, count_of_lt hbelow]
  obtain ⟨htokens, hlevels, hdepth, hcarries⟩ := h
  obtain ⟨levels, depth, carry⟩ := s
  cases hcarries with
  | string d text line hline hcontinued hopened =>
    simp only [hopened, SourceTokens.finish, hline]
    rfl
  | continuation hcontinued hopened =>
    simp only [hopened, hcontinued, or_true, if_true, SourceTokens.finish]
    rfl
  | nothing hcontinued hopened =>
    simp only [bind, Except.bind, hopened, hcontinued, Bool.false_eq_true, or_false,
      SourceTokens.finish]
    simp only at hdepth hlevels
    rw [hdepth]
    by_cases hopen : depth = 0
    · rw [if_neg (by omega), if_pos hopen, supplyNewline_eq (hlast rfl hopen), htokens, hlevels]
      simp only [List.append_assoc]
      rfl
    · rw [if_pos (by omega), if_neg hopen]
      rfl

/-- An end that cannot be counted is a fault where counters are checked. -/
theorem finish_of_not_fits (hlength : source.length < UInt32.size)
    (hcut : cutLines {} (Text.lines source) = .ok (pieces, s))
    (h : Follows (Text.lines source).toArray pieces s m) (hchecked : m.checked = true)
    (hnarrow : NarrowLines {} (Text.lines source)) (hfits : ¬ Fits source) :
    m.finish (Text.lines source).length ((Text.lines source).getLastD []) = .error .overflow := by
  rw [fits_iff hcut, and_iff_right hnarrow, not_and_or, Nat.not_lt] at hfits
  rw [finish, hchecked]
  rcases Nat.lt_or_ge ((Text.lines source).length + 1) UInt32.size with hbelow | hbelow
  · obtain ⟨hcarry, hdepth, hneeds, hlast⟩ : s.carry = .nothing ∧ s.depth = 0 ∧
        needsNewline ((Text.lines source).getLastD []) ∧
          UInt32.size ≤ ((Text.lines source).getLastD []).length + 1 := by
      simpa [Nat.not_le.2 hbelow] using hfits
    obtain ⟨-, -, hbrackets, hcarries⟩ := h
    rw [hcarry] at hcarries
    cases hcarries with
    | nothing hcontinued hopened =>
      have hcol := word_of_lt
        (Nat.lt_of_le_of_lt (Text.length_getLastD_lines_le source) hlength)
      rw [count_of_lt hbelow]
      simp only [bind, Except.bind, hopened, hbrackets, hdepth, hcontinued, supplyNewline, hneeds,
        hcol, hchecked, count_of_exhausted hlast]
      rfl
  · rw [count_of_exhausted hbelow]
    rfl

end Machine

theorem gives_lines (checked : Bool) (source : Text) :
    Gives checked (fun r => ∀ m n, r = .ok (m, n) → m.levels ≠ [] ∧ m.checked = checked)
      (Machine.lexLines { checked := checked } 0 (Text.lines source)) := by
  have hfeed : ∀ text ∈ Text.lines source, '\n' ∉ text.dropLast :=
    fun text => Text.not_feed_of_mem_lines
  exact Machine.gives_lexLines hfeed { checked := checked } 0 (List.cons_ne_nil 0 [])

theorem gives_lex (checked : Bool) (source : Text) :
    Gives checked (fun _ => True) (lex checked source) := by
  refine (gives_lines checked source).bind fun r hr => ?_
  cases r with
  | error e => exact .result _ trivial
  | ok r =>
    obtain ⟨hlevels, hchecked⟩ := hr r.1 r.2 rfl
    have hfinish := Machine.gives_finish r.1 r.2 ((Text.lines source).getLastD [])
    rw [hchecked] at hfinish
    simp only
    rwa [if_neg (by simpa using hlevels)]

theorem follows_lines {source : Text} (hlength : source.length < UInt32.size)
    (hnarrow : NarrowLines {} (Text.lines source)) (checked : Bool) :
    match cutLines {} (Text.lines source) with
    | .ok (pieces, s) =>
      ∃ m, Machine.lexLines { checked := checked } 0 (Text.lines source) =
          .ok (.ok (m, (Text.lines source).length)) ∧
        Machine.Follows (Text.lines source).toArray pieces s m
    | .error p =>
      Machine.lexLines { checked := checked } 0 (Text.lines source) =
        .ok (.error ⟨.inconsistentDedent, p, (Text.lines source)[p.line - 1]?⟩) := by
  have hlines : Text.lines source = [] ++ Text.lines source := rfl
  have hfollows := Machine.follows_lexLines hlength hlines rfl (Machine.follows_start _ checked)
    (by simp [Text.flatten_lines]) hnarrow
  cases hcut : cutLines {} (Text.lines source) <;> rw [hcut] at hfollows <;> exact hfollows

theorem lex_eq {source : Text} (hlength : source.length < UInt32.size) (hfits : Fits source)
    (checked : Bool) : lex checked source = .ok (tokenize source) := by
  have hfollows := follows_lines hlength hfits.narrow checked
  rw [tokenize, lex]
  cases hcut : cutLines {} (Text.lines source) with
  | error p =>
    rw [hcut] at hfollows
    simp only [hfollows]
    rfl
  | ok r =>
    obtain ⟨pieces, s⟩ := r
    rw [hcut] at hfollows
    obtain ⟨m, hread, hm⟩ := hfollows
    have hlevels : m.levels ≠ [] := hm.levels_eq ▸ (cutLines_nested hcut).ne_nil
    simp only [hread, bind, Except.bind]
    rw [if_neg (by simpa using hlevels), Machine.finish_eq hcut hm hfits]

theorem lex_of_not_fits {source : Text} (hlength : source.length < UInt32.size)
    (hfits : ¬ Fits source) : lex true source = .error .overflow := by
  by_cases hnarrow : NarrowLines {} (Text.lines source)
  · have hfollows := follows_lines hlength hnarrow true
    cases hcut : cutLines {} (Text.lines source) with
    | error p =>
      -- Behind a line that cannot be cut there is nothing left to count.
      refine absurd ⟨hnarrow, fun _ _ h => ?_, fun _ _ h => ?_⟩ hfits <;>
        exact absurd (hcut.symm.trans h) nofun
    | ok r =>
      obtain ⟨pieces, s⟩ := r
      rw [hcut] at hfollows
      obtain ⟨m, hread, hm⟩ := hfollows
      have hends := gives_lines true source
      rw [hread] at hends
      cases hends with
      | result _ hends =>
        obtain ⟨hlevels, hchecked⟩ := hends m _ rfl
        simp only [lex, hread, bind, Except.bind]
        rw [if_neg (by simpa using hlevels),
          Machine.finish_of_not_fits hlength hcut hm hchecked hnarrow hfits]
  · have hfault : Machine.lexLines { checked := true } 0 (Text.lines source) = .error .overflow :=
      Machine.lexLines_of_not_narrow hlength (List.nil_append _).symm rfl
        (Machine.follows_start _ true) rfl (by simp [Text.flatten_lines]) hnarrow
    simp only [lex, hfault, bind, Except.bind]

/-- The lexer by byte offsets meets no fault but an exhausted counter: it slices no line outside its
bounds or inside a character, every step of a scan advances, a number is found wherever one is
looked for, and the stack of blocks is never empty. So it gives a list of tokens or an error for
every source where counters are not checked. Where they are checked it does so unless a column of
the indentation or a place behind the source is too large, and otherwise its result is that of the
cut by characters. -/
theorem lex_returns (source : Text) :
    (∃ r, lex false source = .ok r) ∧
      (∀ fault, lex true source = .error fault → fault = .overflow) ∧
        (source.length < UInt32.size →
          (lex true source = .error .overflow ↔ ¬ Fits source) ∧
            (Fits source → ∀ checked, lex checked source = .ok (tokenize source))) := by
  refine ⟨(gives_lex false source).exists_ok, fun _ => (gives_lex true source).eq_overflow,
    fun hlength => ⟨⟨fun hfault hfits => ?_, lex_of_not_fits hlength⟩, lex_eq hlength⟩⟩
  rw [lex_eq hlength hfits] at hfault
  cases hfault

/-- An escape before a character of two bytes, and another one at the end of the source, behind
letters that begin no string. -/
theorem lex_returns_of_escapes :
    let source : Text := "f'\\é'\nb'\\".toList
    let first : Text := "f'\\é'\n".toList
    let last : Text := "b'\\".toList
    source.length < UInt32.size ∧ Fits source ∧ ∀ checked, lex checked source = .ok (.ok
      [⟨.string, "f'\\é'".toList, ⟨1, 0⟩, ⟨1, 5⟩, some first⟩,
        ⟨.newline, ['\n'], ⟨1, 5⟩, ⟨1, 6⟩, some first⟩,
        ⟨.name, ['b'], ⟨2, 0⟩, ⟨2, 1⟩, some last⟩,
        ⟨.unrecognized, "'".toList, ⟨2, 1⟩, ⟨2, 2⟩, some last⟩,
        ⟨.unrecognized, ['\\'], ⟨2, 2⟩, ⟨2, 3⟩, some last⟩,
        ⟨.newline, [], ⟨2, 3⟩, ⟨2, 4⟩, none⟩, ⟨.endMarker, [], ⟨3, 0⟩, ⟨3, 0⟩, none⟩]) := by
  intro source first last
  have hlength : source.length < UInt32.size := by decide
  have hfits : Fits source := .of_bounds (by decide) (by decide) (by decide)
  refine ⟨hlength, hfits, fun checked => ?_⟩
  rw [((lex_returns source).2.2 hlength).2 hfits checked]
  rfl

theorem width_tabs (n : Nat) : Indentation.width (List.replicate n '\t') = 8 * n := by
  have hfold : ∀ blocks, (List.replicate n '\t').foldl Indentation.columnAfter (8 * blocks) =
      8 * (blocks + n) := by
    induction n with
    | zero => exact fun _ => rfl
    | succ n ih =>
      intro blocks
      have hnext : Indentation.columnAfter (8 * blocks) '\t' = 8 * (blocks + 1) := by
        rw [Indentation.columnAfter, if_pos rfl]
        omega
      rw [List.replicate_succ, List.foldl_cons, hnext, ih, Nat.add_assoc, Nat.add_comm 1]
  have hzero := hfold 0
  rwa [Nat.zero_add] at hzero

theorem lex_tabs {n : Nat} (hlength : n + 1 < UInt32.size) (hwidth : UInt32.size ≤ 8 * n) :
    (Text.lines (List.replicate n '\t' ++ ['x'])).length = 1 ∧
      lex true (List.replicate n '\t' ++ ['x']) = .error .overflow := by
  have hfeed : '\n' ∉ List.replicate n '\t' ++ ['x'] := by simp
  have hlines := Text.lines_of_open hfeed (by simp)
  have hfront : List.replicate n '\t' <+:
      (List.replicate n '\t' ++ ['x']).takeWhile Text.isBlank := by
    rw [List.takeWhile_append_of_pos (by simp [Text.isBlank])]
    exact List.prefix_append ..
  refine ⟨by rw [hlines]; rfl, lex_of_not_fits (by simpa using hlength) fun hfits => ?_⟩
  have hnarrow := hfits.narrow [] _ [] [] {} hlines rfl rfl rfl _ ((List.mem_inits _ _).2 hfront)
  rw [width_tabs] at hnarrow
  omega

/-- Tabs carry the column of a name past 32 bits long before there are as many of them. -/
theorem exists_overflow :
    let source : Text := List.replicate 536870912 '\t' ++ ['x']
    source.length < UInt32.size ∧ (Text.lines source).length < UInt32.size ∧
      lex true source = .error .overflow := by
  obtain ⟨hlines, hlex⟩ := lex_tabs (n := 536870912) (by decide) (by decide)
  refine ⟨?_, ?_, hlex⟩
  · rw [List.length_append, List.length_replicate]
    decide
  · rw [hlines]
    decide

end ByteLexer

end SourceTokens
