import SourceTokens.Proofs.Coverage
import SourceTokens.Rebuild

/-!
What is written for a list of tokens. If no token starts in the text of an earlier one, all of them
can be placed, and the text is the one that `written` gives. Between the tokens of pieces whose gaps
do not leave their lines, the cursor is always on the line of the next token, so each gap comes back
as spaces as soon as a token with text follows it.
-/

namespace SourceTokens.Rebuild

open Text

/-- The text of tokens behind a cursor, on the assumption that each of them can be placed. -/
def written (cursor : Position) : List Token → Text
  | [] => []
  | t :: rest =>
    if t.writesNothing then written cursor rest
    else padding cursor t.start ++ (t.value ++ written (t.start.past t.value) rest)

theorem written_cons_of_writesNothing (cursor : Position) {t : Token} (rest : List Token)
    (h : t.writesNothing = true) : written cursor (t :: rest) = written cursor rest := by
  rw [written, if_pos h]

theorem written_cons (cursor : Position) {t : Token} (rest : List Token)
    (h : t.writesNothing = false) : written cursor (t :: rest) =
      padding cursor t.start ++ (t.value ++ written (t.start.past t.value) rest) := by
  rw [written, h, if_neg Bool.false_ne_true]

theorem written_append_of_writesNothing (cursor : Position) {a : List Token} (b : List Token)
    (h : ∀ t ∈ a, t.writesNothing) :
    written cursor (a ++ b) = written cursor b := by
  induction a with
  | nil => rfl
  | cons t rest ih =>
    obtain ⟨ht, hrest⟩ := List.forall_mem_cons.1 h
    rw [List.cons_append, written_cons_of_writesNothing cursor _ ht, ih hrest]

theorem written_of_writesNothing {tokens : List Token} (cursor : Position)
    (h : ∀ t ∈ tokens, t.writesNothing) : written cursor tokens = [] := by
  have happend := written_append_of_writesNothing cursor [] h
  rwa [List.append_nil] at happend

def Clears (a b : Token) : Prop := a.writesNothing = false → a.start.past a.value ≤ b.start

/-- Tokens that clear each other and start behind the cursor can all be placed. -/
theorem textFrom_eq_written (index : Nat) {cursor : Position} {tokens : List Token}
    (hstart : ∀ t ∈ tokens, cursor ≤ t.start) (hpair : tokens.Pairwise Clears) :
    textFrom index cursor tokens = .ok (written cursor tokens) := by
  induction tokens generalizing index cursor with
  | nil => rfl
  | cons t rest ih =>
    obtain ⟨hclears, hrest⟩ := List.pairwise_cons.1 hpair
    have hplaced : ¬ t.start.before cursor := by
      rw [Position.before_iff_lt]
      exact not_lt.2 (hstart t (List.mem_cons_self ..))
    rw [textFrom, if_neg hplaced]
    cases hwrites : t.writesNothing with
    | true =>
      rw [written_cons_of_writesNothing cursor rest hwrites, if_pos rfl]
      exact ih _ (fun b hb => hstart b (List.mem_cons_of_mem _ hb)) hrest
    | false =>
      rw [written_cons cursor rest hwrites, if_neg Bool.false_ne_true,
        ih _ (fun b hb => hclears b hb hwrites) hrest]

/-- All tokens of an accepted source can be placed. -/
theorem rebuild_eq_written {source : Text} {tokens : List Token} {pieces : List Piece}
    {levels : List Nat} (h : Accepted source tokens pieces levels) :
    rebuild tokens = .ok (written .origin tokens) := by
  apply textFrom_eq_written
  · intro t ht
    rcases h.mem_cases ht with ht | ht
    · exact Piece.start_le_of_mem_place ht
    · exact (Position.le_past _ source).trans (Accepted.past_le_of_supplied ht)
  · exact h.pairwise.imp fun hab _ => hab.1

theorem padding_self (p : Position) : padding p p = [] := by
  simp [padding]

/-- A place reached without leaving the line of the cursor is reached by spaces. -/
theorem padding_past (cursor : Position) {pending : Text} (h : '\n' ∉ pending) :
    padding cursor (cursor.past pending) = List.replicate pending.length ' ' := by
  rw [padding, Position.past_of_no_feed _ h, if_neg (Nat.lt_irrefl _), Nat.add_sub_cancel_left]

theorem breaks_add (col : Nat) {m : Nat} (hm : m ≠ 0) (n : Nat) :
    breaks col (m + n) = breaks col m ++ breaks 0 n := by
  have hbare : ∀ m, breaks 0 (m + n) = breaks 0 m ++ breaks 0 n := by
    intro m
    induction m with
    | zero => rw [Nat.zero_add]; rfl
    | succ m ih => rw [Nat.add_right_comm, breaks, breaks, if_pos rfl, if_pos rfl, ih]; rfl
  obtain ⟨m, rfl⟩ := Nat.exists_eq_succ_of_ne_zero hm
  rw [Nat.succ_add, breaks, breaks, hbare]
  split <;> rfl

/-- The padding up to a token below a line goes over the start of that line. -/
theorem padding_over {cursor start : Position} {number : Nat} (hcursor : cursor.line < number)
    (hstart : (⟨number, 0⟩ : Position) ≤ start) :
    padding cursor start =
      breaks cursor.col (number - cursor.line) ++ padding ⟨number, 0⟩ start := by
  have hline : number ≤ start.line := Position.line_le_of_le hstart
  have hsplit : start.line - cursor.line = (number - cursor.line) + (start.line - number) := by
    omega
  rw [padding, if_pos (by omega), hsplit, breaks_add cursor.col (by omega), padding]
  split
  · rw [List.append_assoc]
  · rename_i hbelow
    have hsame : start.line - number = 0 := by
      change ¬ number < start.line at hbelow
      omega
    rw [hsame, breaks, List.append_nil]
    rfl

/-- The line breaks up to the start of a line are written before all that stands below it. -/
theorem written_over {cursor : Position} {a : List Token} {number : Nat}
    (hcursor : cursor.line < number)
    (hstart : ∀ t ∈ a, (⟨number, 0⟩ : Position) ≤ t.start)
    (hwrites : ∃ t ∈ a, t.writesNothing = false) :
    written cursor a = breaks cursor.col (number - cursor.line) ++ written ⟨number, 0⟩ a := by
  induction a with
  | nil =>
    obtain ⟨t, ht, -⟩ := hwrites
    cases ht
  | cons t rest ih =>
    obtain ⟨ht, hrest⟩ := List.forall_mem_cons.1 hstart
    cases hnothing : t.writesNothing with
    | true =>
      rw [written_cons_of_writesNothing _ _ hnothing, written_cons_of_writesNothing _ _ hnothing]
      apply ih hrest
      obtain ⟨u, hu, hwrites⟩ := hwrites
      rcases List.mem_cons.1 hu with rfl | hu
      · rw [hnothing] at hwrites
        cases hwrites
      · exact ⟨u, hu, hwrites⟩
    | false =>
      rw [written_cons _ _ hnothing, written_cons _ _ hnothing, padding_over hcursor ht,
        List.append_assoc]

def spaced : Piece → Text
  | .gap text => List.replicate text.length ' '
  | .lexeme _ text => text

theorem flatMap_spaced_of_spaces {pieces : List Piece}
    (h : ∀ text, .gap text ∈ pieces → ∀ c ∈ text, c = ' ') :
    pieces.flatMap spaced = Piece.cover pieces := by
  induction pieces with
  | nil => rfl
  | cons piece rest ih =>
    rw [List.flatMap_cons, Piece.cover_cons,
      ih fun text htext => h text (List.mem_cons_of_mem _ htext)]
    congr 1
    cases piece with
    | gap text => exact (List.eq_replicate_iff.2 ⟨rfl, h text (List.mem_cons_self ..)⟩).symm
    | lexeme kind text => rfl

/-- What is written up to a token that writes text. The text `pending` stands between the cursor
and the first piece and is written with the first token. -/
theorem written_pending (lines : Array Text) (cursor : Position) (pending : Text)
    {pieces : List Piece} {t : Token} (later : List Token) (hpending : '\n' ∉ pending)
    (hgaps : ∀ text, .gap text ∈ pieces → '\n' ∉ text) (hwrites : t.writesNothing = false)
    (hstart : t.start = cursor.past (pending ++ Piece.cover pieces)) :
    written cursor (Piece.place lines (cursor.past pending) pieces ++ t :: later) =
      List.replicate pending.length ' ' ++ (pieces.flatMap spaced ++
        (t.value ++ written (t.start.past t.value) later)) := by
  induction pieces generalizing cursor pending with
  | nil =>
    rw [Piece.cover, List.flatMap_nil, List.append_nil] at hstart
    rw [Piece.place, List.nil_append, written_cons cursor later hwrites, hstart,
      padding_past cursor hpending, List.flatMap_nil, List.nil_append]
  | cons piece rest ih =>
    have hrest : ∀ text, .gap text ∈ rest → '\n' ∉ text :=
      fun text htext => hgaps text (List.mem_cons_of_mem _ htext)
    rw [Piece.cover_cons] at hstart
    cases piece with
    | gap text =>
      have htext : '\n' ∉ pending ++ text :=
        List.not_mem_append hpending (hgaps text (List.mem_cons_self ..))
      rw [← List.append_assoc] at hstart
      have hnext := ih cursor (pending ++ text) htext hrest hstart
      rw [Position.past_append] at hnext
      rw [Piece.place, hnext, List.length_append, ← List.replicate_append_replicate,
        List.flatMap_cons, spaced]
      simp only [List.append_assoc]
    | lexeme kind text =>
      have hsilent : (Piece.token lines (cursor.past pending) kind text).writesNothing =
          (kind.isStructural && text.isEmpty) := rfl
      rw [Piece.place_lexeme, List.cons_append, List.flatMap_cons, spaced]
      cases hnothing : kind.isStructural && text.isEmpty with
      | true =>
        have htext : text = [] := by simp_all
        subst htext
        rw [written_cons_of_writesNothing _ _ (hsilent.trans hnothing)]
        exact ih cursor pending hpending hrest hstart
      | false =>
        rw [Position.past_append] at hstart
        have hnext := ih ((cursor.past pending).past text) [] (by simp) hrest
          (hstart.trans (Position.past_append _ _ _))
        rw [Position.past_nil, List.length_nil, List.replicate_zero, List.nil_append] at hnext
        rw [written_cons _ _ (hsilent.trans hnothing)]
        change padding cursor (cursor.past pending) ++
          (text ++ written ((cursor.past pending).past text) _) = _
        rw [padding_past cursor hpending, hnext, List.append_assoc]

/-- What is written for pieces up to a token that writes text and stands right behind them. -/
theorem written_place (lines : Array Text) (cursor : Position) {pieces : List Piece} {t : Token}
    (later : List Token) (hgaps : ∀ text, .gap text ∈ pieces → '\n' ∉ text)
    (hwrites : t.writesNothing = false) (hstart : t.start = cursor.past (Piece.cover pieces)) :
    written cursor (Piece.place lines cursor pieces ++ t :: later) =
      pieces.flatMap spaced ++ (t.value ++ written (t.start.past t.value) later) :=
  written_pending lines cursor [] later (by simp) hgaps hwrites hstart

end SourceTokens.Rebuild
