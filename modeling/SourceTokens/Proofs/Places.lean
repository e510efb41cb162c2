import Mathlib.Data.List.Basic
import Mathlib.Order.Basic
import SourceTokens.Position

/-!
Places in reading order, and the characters of a source with their places. A character is placed
by its physical line and its column there; the same places are reached by reading the source from
its origin. The text from one place to another consists of the characters in between, the first
place included and the second excluded.
-/

namespace SourceTokens

namespace Position

/-- Reading order: lines decide first, columns within a line. -/
instance : LE Position where
  le a b := a.line < b.line ∨ a.line = b.line ∧ a.col ≤ b.col

instance : LT Position where
  lt a b := a.line < b.line ∨ a.line = b.line ∧ a.col < b.col

instance (a b : Position) : Decidable (a ≤ b) := inferInstanceAs (Decidable (_ ∨ _))

instance (a b : Position) : Decidable (a < b) := inferInstanceAs (Decidable (_ ∨ _))

theorem le_iff {a b : Position} : a ≤ b ↔ a.line < b.line ∨ a.line = b.line ∧ a.col ≤ b.col :=
  Iff.rfl

theorem lt_iff {a b : Position} : a < b ↔ a.line < b.line ∨ a.line = b.line ∧ a.col < b.col :=
  Iff.rfl

instance : LinearOrder Position where
  toOrd := inferInstance
  le_refl a := Or.inr ⟨rfl, Nat.le_refl _⟩
  le_trans a b c hab hbc := by
    rw [le_iff] at *
    omega
  lt_iff_le_not_ge a b := by
    rw [lt_iff, le_iff, le_iff]
    omega
  le_antisymm a b hab hba := by
    obtain ⟨line, col⟩ := a
    obtain ⟨line', col'⟩ := b
    simp only [le_iff, mk.injEq] at *
    omega
  le_total a b := by
    rw [le_iff, le_iff]
    omega
  toDecidableLE := inferInstance
  toDecidableLT := inferInstance
  compare_eq_compareOfLessAndEq a b := by
    obtain ⟨line, col⟩ := a
    obtain ⟨line', col'⟩ := b
    simp only [compare, compareOfLessAndEq, lt_iff, mk.injEq]
    rcases Nat.lt_trichotomy line line' with hline | hline | hline
    · simp [hline]
    · simp [hline]
    · simp [Nat.ne_of_gt hline, Nat.lt_asymm hline]

theorem before_iff_lt {a b : Position} : a.before b ↔ a < b := by
  simp [before, lt_iff]

theorem past_cons (p : Position) (c : Char) (rest : Text) :
    p.past (c :: rest) = (p.step c).past rest := rfl

theorem lt_step (p : Position) (c : Char) : p < p.step c := by
  unfold step
  split
  · exact Or.inl (Nat.lt_succ_self _)
  · exact Or.inr ⟨rfl, Nat.lt_succ_self _⟩

theorem le_past (p : Position) (text : Text) : p ≤ p.past text := by
  induction text generalizing p with
  | nil => exact le_refl p
  | cons c rest ih => exact (lt_step p c).le.trans (ih (p.step c))

theorem past_of_no_feed (p : Position) {text : Text} (h : '\n' ∉ text) :
    p.past text = ⟨p.line, p.col + text.length⟩ := by
  induction text generalizing p with
  | nil => rfl
  | cons c rest ih =>
    obtain ⟨hc, hrest⟩ := List.ne_and_not_mem_of_not_mem_cons h
    rw [past_cons, ih _ hrest, step, if_neg (Ne.symm hc)]
    simp only [List.length_cons, Nat.add_assoc, Nat.add_comm 1]

theorem past_eq_stop (p : Position) {c : Char} (h : c ≠ '\n') : p.past [c] = p.stop [c] := by
  change p.step c = _
  rw [step, if_neg h, stop]
  rfl

theorem stop_singleton (p : Position) (c : Char) : p.stop [c] = ⟨p.line, p.col + 1⟩ := rfl

theorem stop_concat (p : Position) (text : Text) (c : Char) :
    p.stop (text ++ [c]) = ⟨(p.past text).line, (p.past text).col + 1⟩ := by
  simp [stop]

theorem le_stop (p : Position) (text : Text) : p ≤ p.stop text := by
  rcases List.eq_nil_or_concat text with rfl | ⟨front, c, rfl⟩
  · exact le_refl p
  · have hpast := le_past p front
    rw [List.concat_eq_append, stop_concat]
    simp only [le_iff] at hpast ⊢
    omega

/-- A token never stops behind the place where the text after it starts. -/
theorem stop_le_past (p : Position) (text : Text) : p.stop text ≤ p.past text := by
  rcases List.eq_nil_or_concat text with rfl | ⟨front, c, rfl⟩
  · exact le_refl p
  · rw [List.concat_eq_append, stop_concat, past_append]
    change _ ≤ (p.past front).step c
    unfold step
    split
    · exact Or.inl (Nat.lt_succ_self _)
    · exact le_refl _

theorem line_le_of_le {p q : Position} (h : p ≤ q) : p.line ≤ q.line := by
  rw [le_iff] at h
  omega

theorem lt_past {text : Text} (p : Position) (hne : text ≠ []) : p < p.past text := by
  obtain ⟨c, rest, rfl⟩ := List.exists_cons_of_ne_nil hne
  exact (lt_step p c).trans_le (le_past _ rest)

/-- A text stops where the end of it does. -/
theorem stop_append (p : Position) (a : Text) {b : Text} (hb : b ≠ []) :
    p.stop (a ++ b) = (p.past a).stop b := by
  rcases List.eq_nil_or_concat b with rfl | ⟨front, c, rfl⟩
  · exact absurd rfl hb
  · rw [List.concat_eq_append, ← List.append_assoc, stop_concat, past_append, stop_concat]

theorem past_lt_stop {more : Text} (p : Position) (text : Text) (hne : more ≠ []) :
    p.past text < p.stop (text ++ more) := by
  obtain ⟨front, c, rfl⟩ : ∃ front c, more = front ++ [c] := by
    rcases List.eq_nil_or_concat more with rfl | ⟨front, c, rfl⟩
    · exact absurd rfl hne
    · exact ⟨front, c, List.concat_eq_append⟩
  have hle := le_past (p.past text) front
  rw [← List.append_assoc, stop_concat, past_append]
  refine hle.trans_lt ?_
  exact Or.inr ⟨rfl, Nat.lt_succ_self _⟩

end Position

namespace Text

def placedFrom (p : Position) : Text → List (Position × Char)
  | [] => []
  | c :: rest => (p, c) :: placedFrom (p.step c) rest

def placedLine (number col : Nat) : Text → List (Position × Char)
  | [] => []
  | c :: rest => (⟨number, col⟩, c) :: placedLine number (col + 1) rest

def placedLines (number : Nat) : List Text → List (Position × Char)
  | [] => []
  | line :: later => placedLine number 0 line ++ placedLines (number + 1) later

/-- The characters of a source, each with the number of its physical line and its column. -/
def placed (source : Text) : List (Position × Char) := placedLines 1 (lines source)

/-- The physical line of a number, counted from one, with its terminator. -/
def physicalLine? (source : Text) : Nat → Option Text
  | 0 => none
  | n + 1 => (lines source)[n]?

def between (source : Text) (start stop : Position) : Text :=
  ((placed source).filter fun q => start ≤ q.1 ∧ q.1 < stop).map Prod.snd

/-- Whether a place is on a physical line of a source, its end included. -/
def HasPlace (source : Text) (p : Position) : Prop :=
  ∃ line, physicalLine? source p.line = some line ∧ p.col ≤ line.length

theorem placedFrom_append (p : Position) (a b : Text) :
    placedFrom p (a ++ b) = placedFrom p a ++ placedFrom (p.past a) b := by
  induction a generalizing p with
  | nil => rfl
  | cons c rest ih => simp only [List.cons_append, placedFrom, ih, Position.past_cons]

theorem map_snd_placedFrom (p : Position) (text : Text) :
    (placedFrom p text).map Prod.snd = text := by
  induction text generalizing p with
  | nil => rfl
  | cons c rest ih => simp only [placedFrom, List.map_cons, ih]

theorem length_placedFrom (p : Position) (text : Text) :
    (placedFrom p text).length = text.length := by
  rw [← List.length_map Prod.snd, map_snd_placedFrom]

/-- A character lies between the place where its text starts and the place where it stops. -/
theorem bounds_of_mem_placedFrom {p : Position} {text : Text} {q : Position × Char}
    (h : q ∈ placedFrom p text) : p ≤ q.1 ∧ q.1 < p.stop text := by
  induction text generalizing p with
  | nil => cases h
  | cons c rest ih =>
    rcases List.mem_cons.1 h with rfl | h
    · refine ⟨le_refl _, ?_⟩
      cases rest with
      | nil => exact Or.inr ⟨rfl, Nat.lt_succ_self _⟩
      | cons d rest =>
        exact (Position.lt_step p c).trans_le (Position.le_stop (p.step c) (d :: rest))
    · obtain ⟨hle, hlt⟩ := ih h
      cases rest with
      | nil => cases h
      | cons d rest => exact ⟨(Position.lt_step p c).le.trans hle, hlt⟩

/-- Reading a first line from any of its columns, and then the lines after it, gives the places
that the lines give. -/
theorem placedFrom_eq (number col : Nat) (text : Text) :
    placedFrom ⟨number, col⟩ text =
      match lines text with
      | [] => []
      | line :: later => placedLine number col line ++ placedLines (number + 1) later := by
  induction text generalizing number col with
  | nil => rfl
  | cons c rest ih =>
    simp only [placedFrom, lines, Position.step]
    by_cases hc : c = '\n'
    · simp only [hc, if_true, ih]
      cases lines rest <;> rfl
    · simp only [hc, if_false, ih]
      cases lines rest <;> rfl

theorem placed_eq_placedFrom (source : Text) : placed source = placedFrom .origin source := by
  rw [Position.origin, placedFrom_eq]
  unfold placed
  cases lines source <;> rfl

theorem getElem?_of_mem_placedLine {number col : Nat} {text : Text} {q : Position × Char}
    (h : q ∈ placedLine number col text) :
    q.1.line = number ∧ col ≤ q.1.col ∧ text[q.1.col - col]? = some q.2 := by
  induction text generalizing col with
  | nil => cases h
  | cons c rest ih =>
    rcases List.mem_cons.1 h with rfl | h
    · simp
    · obtain ⟨hline, hcol, hget⟩ := ih h
      refine ⟨hline, by omega, ?_⟩
      rw [show q.1.col - col = (q.1.col - (col + 1)) + 1 by omega]
      exact hget

theorem getElem?_of_mem_placedLines {number : Nat} {lines : List Text} {q : Position × Char}
    (h : q ∈ placedLines number lines) :
    number ≤ q.1.line ∧
      ∃ text, lines[q.1.line - number]? = some text ∧ text[q.1.col]? = some q.2 := by
  induction lines generalizing number with
  | nil => cases h
  | cons line later ih =>
    rcases List.mem_append.1 h with h | h
    · obtain ⟨hline, -, hget⟩ := getElem?_of_mem_placedLine h
      refine ⟨Nat.le_of_eq hline.symm, line, ?_, hget⟩
      simp [hline]
    · obtain ⟨hline, found, hfound, hget⟩ := ih h
      refine ⟨by omega, found, ?_, hget⟩
      rw [show q.1.line - number = (q.1.line - (number + 1)) + 1 by omega]
      exact hfound

/-- A placed character is the one at its column of its physical line. -/
theorem physicalLine?_of_mem_placed {source : Text} {q : Position × Char}
    (h : q ∈ placed source) :
    ∃ text, physicalLine? source q.1.line = some text ∧ text[q.1.col]? = some q.2 := by
  obtain ⟨hline, line, hget, hchar⟩ := getElem?_of_mem_placedLines h
  refine ⟨line, ?_, hchar⟩
  rw [show q.1.line = (q.1.line - 1) + 1 by omega]
  exact hget

/-- What follows a text stands at the place that reading the text reaches. -/
theorem mem_placed_append_cons (before : Text) (c : Char) (after : Text) :
    (Position.origin.past before, c) ∈ placed (before ++ c :: after) := by
  rw [placed_eq_placedFrom, placedFrom_append]
  exact List.mem_append_right _ (List.mem_cons_self ..)

theorem HasPlace.line_lt {source : Text} {p : Position} (h : HasPlace source p) :
    p.line - 1 < (lines source).length := by
  obtain ⟨line, hline, -⟩ := h
  cases hnumber : p.line with
  | zero =>
    rw [hnumber] at hline
    cases hline
  | succ n =>
    rw [hnumber] at hline
    exact (List.getElem?_eq_some_iff.1 hline).1

/-- Before a character and behind it there is a place on its physical line. -/
theorem hasPlace_around (before : Text) (c : Char) (after : Text) :
    HasPlace (before ++ c :: after) (Position.origin.past before) ∧
      HasPlace (before ++ c :: after) ((Position.origin.past before).stop [c]) := by
  obtain ⟨line, hline, hget⟩ := physicalLine?_of_mem_placed (mem_placed_append_cons before c after)
  obtain ⟨hcol, -⟩ := List.getElem?_eq_some_iff.1 hget
  exact ⟨⟨line, hline, Nat.le_of_lt hcol⟩, ⟨line, hline, hcol⟩⟩

/-- Where a part of a source stops there is a place, if there is one where it starts. -/
theorem hasPlace_stop {source before text after : Text} (hsource : source = before ++ text ++ after)
    (hstart : HasPlace source (Position.origin.past before)) :
    HasPlace source ((Position.origin.past before).stop text) := by
  rcases List.eq_nil_or_concat text with rfl | ⟨front, c, rfl⟩
  · exact hstart
  · have hplace := (hasPlace_around (before ++ front) c after).2
    rw [Position.past_append, Position.stop_singleton] at hplace
    rw [hsource, List.concat_eq_append, Position.stop_concat]
    simpa using hplace

/-- A part of a source is the text between the place where it starts and the one where it
stops. -/
theorem between_append (before text after : Text) :
    between (before ++ text ++ after) (Position.origin.past before)
      ((Position.origin.past before).stop text) = text := by
  have hbefore : ∀ q ∈ placedFrom .origin before, ¬ Position.origin.past before ≤ q.1 := by
    intro q hq
    exact not_le.2 ((bounds_of_mem_placedFrom hq).2.trans_le (Position.stop_le_past _ _))
  have hafter : ∀ q ∈ placedFrom (Position.origin.past (before ++ text)) after,
      ¬ q.1 < (Position.origin.past before).stop text := by
    intro q hq
    rw [Position.past_append] at hq
    exact not_lt.2 ((Position.stop_le_past _ _).trans (bounds_of_mem_placedFrom hq).1)
  have htext : ∀ q ∈ placedFrom (Position.origin.past before) text,
      Position.origin.past before ≤ q.1 ∧ q.1 < (Position.origin.past before).stop text :=
    fun q hq => bounds_of_mem_placedFrom hq
  rw [between, placed_eq_placedFrom, placedFrom_append, placedFrom_append, List.filter_append,
    List.filter_append, List.filter_eq_nil_iff.2, List.filter_eq_self.2, List.filter_eq_nil_iff.2]
  · simp only [List.nil_append, List.append_nil, map_snd_placedFrom]
  · intro q hq
    simp only [decide_eq_true_eq]
    exact fun h => hafter q hq h.2
  · intro q hq
    simp only [decide_eq_true_eq]
    exact htext q hq
  · intro q hq
    simp only [decide_eq_true_eq]
    exact fun h => hbefore q hq h.1

/-- Every physical line ends in its only line feed, except that the last one may have none. -/
theorem exists_lines (source : Text) :
    ∃ full tail : List Text, lines source = full ++ tail ∧
      (∀ line ∈ full, ∃ body, line = body ++ ['\n'] ∧ '\n' ∉ body) ∧
      (tail = [] ∨ ∃ line, tail = [line] ∧ line ≠ [] ∧ '\n' ∉ line) := by
  induction source with
  | nil => exact ⟨[], [], rfl, by simp, Or.inl rfl⟩
  | cons c rest ih =>
    obtain ⟨full, tail, hlines, hfull, htail⟩ := ih
    by_cases hc : c = '\n'
    · refine ⟨['\n'] :: full, tail, ?_, ?_, htail⟩
      · simp only [lines, hc, if_true, hlines, List.cons_append]
      · intro line hline
        rcases List.mem_cons.1 hline with rfl | hline
        · exact ⟨[], rfl, by simp⟩
        · exact hfull line hline
    · cases full with
      | nil =>
        rcases htail with rfl | ⟨line, rfl, -, hline⟩
        · refine ⟨[], [[c]], ?_, by simp, Or.inr ⟨[c], rfl, by simp, ?_⟩⟩
          · simp only [lines, hc, if_false, hlines, List.append_nil, List.nil_append]
          · simpa using Ne.symm hc
        · refine ⟨[], [c :: line], ?_, by simp, Or.inr ⟨c :: line, rfl, by simp, ?_⟩⟩
          · simp only [lines, hc, if_false, hlines, List.nil_append]
          · exact List.not_mem_cons_of_ne_of_not_mem (Ne.symm hc) hline
      | cons line full =>
        refine ⟨(c :: line) :: full, tail, ?_, ?_, htail⟩
        · simp only [lines, hc, if_false, hlines, List.cons_append]
        · intro other hother
          rcases List.mem_cons.1 hother with rfl | hother
          · obtain ⟨body, rfl, hbody⟩ := hfull line (List.mem_cons_self ..)
            exact ⟨c :: body, rfl, List.not_mem_cons_of_ne_of_not_mem (Ne.symm hc) hbody⟩
          · exact hfull other (List.mem_cons_of_mem _ hother)

theorem ne_nil_of_mem_lines {source line : Text} (h : line ∈ lines source) : line ≠ [] := by
  obtain ⟨full, tail, hlines, hfull, htail⟩ := exists_lines source
  rw [hlines] at h
  rcases List.mem_append.1 h with h | h
  · obtain ⟨body, rfl, -⟩ := hfull line h
    simp
  · rcases htail with rfl | ⟨last, rfl, hne, -⟩
    · cases h
    · rw [List.mem_singleton.1 h]
      exact hne

/-- Whole lines lead to the start of the line below them. -/
theorem past_flatten {full : List Text} (number : Nat)
    (h : ∀ line ∈ full, ∃ body, line = body ++ ['\n'] ∧ '\n' ∉ body) :
    Position.past ⟨number, 0⟩ full.flatten = ⟨number + full.length, 0⟩ := by
  induction full generalizing number with
  | nil => rfl
  | cons line later ih =>
    obtain ⟨body, rfl, hbody⟩ := h line (List.mem_cons_self ..)
    have hlater := ih (number + 1) fun line hline => h line (List.mem_cons_of_mem _ hline)
    rw [List.flatten_cons, Position.past_append, Position.past_append,
      Position.past_of_no_feed _ hbody]
    change Position.past ⟨number + 1, 0⟩ later.flatten = _
    rw [hlater, List.length_cons, Nat.add_assoc, Nat.add_comm 1]

/-- A source that ends in a line feed ends at the start of the line below it. -/
theorem past_origin_of_feed {source : Text} (h : source = [] ∨ source.getLast? = some '\n') :
    Position.origin.past source = ⟨(lines source).length + 1, 0⟩ := by
  obtain ⟨full, tail, hlines, hfull, htail⟩ := exists_lines source
  have hflat := flatten_lines source
  rcases htail with rfl | ⟨line, rfl, hne, hline⟩
  · rw [hlines, List.append_nil] at hflat ⊢
    rw [← hflat, Position.origin, past_flatten 1 hfull, Nat.add_comm]
  · exfalso
    have hlast : source.getLast? = line.getLast? := by
      rw [← hflat, hlines, List.flatten_append, List.flatten_singleton,
        List.getLast?_append_of_ne_nil _ hne]
    rcases h with rfl | h
    · simp_all [lines]
    · rw [hlast] at h
      exact hline (List.mem_of_getLast? h)

/-- A source whose last line has no line feed ends behind that line. -/
theorem past_origin_of_open {source : Text} (hne : source ≠ [])
    (h : source.getLast? ≠ some '\n') :
    Position.origin.past source =
      ⟨(lines source).length, ((lines source).getLastD []).length⟩ := by
  obtain ⟨full, tail, hlines, hfull, htail⟩ := exists_lines source
  have hflat := flatten_lines source
  rcases htail with rfl | ⟨line, rfl, -, hline⟩
  · exfalso
    rw [hlines, List.append_nil] at hflat
    rcases List.eq_nil_or_concat full with rfl | ⟨front, line, rfl⟩
    · exact hne hflat.symm
    · obtain ⟨body, rfl, -⟩ := hfull line (by simp)
      apply h
      rw [← hflat]
      simp
  · rw [hlines] at hflat ⊢
    have hpast := Position.past_of_no_feed ⟨1 + full.length, 0⟩ hline
    rw [← hflat, List.flatten_append, List.flatten_singleton, Position.origin,
      Position.past_append, past_flatten 1 hfull, hpast]
    simp [Nat.add_comm]

theorem lines_append {a : Text} (ha : a = [] ∨ a.getLast? = some '\n') (b : Text) :
    lines (a ++ b) = lines a ++ lines b := by
  rcases ha with rfl | ha
  · rfl
  · exact lines_append_of_break a b ha

/-- The last character of the last line is that of the source. -/
theorem getLast?_getLastD_lines (source : Text) :
    ((lines source).getLastD []).getLast? = source.getLast? := by
  obtain ⟨full, tail, hlines, hfull, htail⟩ := exists_lines source
  have hflat := flatten_lines source
  rw [hlines] at hflat ⊢
  rw [← hflat]
  rcases htail with rfl | ⟨line, rfl, hne, -⟩
  · rcases List.eq_nil_or_concat full with rfl | ⟨front, line, rfl⟩
    · rfl
    · obtain ⟨body, rfl, -⟩ := hfull line (by simp)
      simp
  · simp [List.getLast?_append_of_ne_nil _ hne]

end Text

end SourceTokens
