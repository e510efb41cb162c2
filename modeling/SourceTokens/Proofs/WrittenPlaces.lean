import SourceTokens.Proofs.Placement

/-!
Where tokens stand in the text that is written for them. A place in a text is counted from its line
feeds, and the cursor is the place behind what has been written so far. Padding is made of spaces
and of line breaks with or without a backslash, and it leads from the cursor to the start of the
next token, so the text of each token begins where the token says it starts.
-/

namespace SourceTokens

open Rebuild

/-- The place behind a text: one more line than there are line feeds, and the column counted from
the last of them. -/
def Text.endPlace (text : Text) : Position :=
  ⟨1 + text.count '\n', (text.reverse.takeWhile (· != '\n')).length⟩

inductive IsPadding : Text → Prop
  | nil : IsPadding []
  | space {rest : Text} (h : IsPadding rest) : IsPadding (' ' :: rest)
  | feed {rest : Text} (h : IsPadding rest) : IsPadding ('\n' :: rest)
  | joined {rest : Text} (h : IsPadding rest) : IsPadding ('\\' :: '\n' :: rest)

/-- A text behind another one that holds the texts of tokens in their order, each behind padding
only and at its start. Markers without text do not show in it. -/
inductive SetOut : Text → List Token → Text → Prop
  | nil {before : Text} : SetOut before [] []
  | marker {before text : Text} {t : Token} {rest : List Token} (hmarker : t.writesNothing = true)
      (h : SetOut before rest text) : SetOut before (t :: rest) text
  | token {before padding text : Text} {t : Token} {rest : List Token}
      (hwrites : t.writesNothing = false) (hpadding : IsPadding padding)
      (hstart : (before ++ padding).endPlace = t.start)
      (h : SetOut (before ++ (padding ++ t.value)) rest text) :
      SetOut before (t :: rest) (padding ++ (t.value ++ text))

theorem past_origin_eq_endPlace (text : Text) : Position.origin.past text = text.endPlace := by
  induction text using List.reverseRecOn with
  | nil => rfl
  | append_singleton front c ih =>
    rw [Position.past_append, ih]
    change Position.step _ c = _
    by_cases hc : c = '\n'
    · subst hc
      simp [Position.step, Text.endPlace, Nat.add_assoc]
    · simp [Position.step, Text.endPlace, hc]

theorem IsPadding.append {a b : Text} (ha : IsPadding a) (hb : IsPadding b) :
    IsPadding (a ++ b) := by
  induction ha with
  | nil => exact hb
  | space _ ih => exact ih.space
  | feed _ ih => exact ih.feed
  | joined _ ih => exact ih.joined

theorem isPadding_spaces (n : Nat) : IsPadding (List.replicate n ' ') := by
  induction n with
  | zero => exact .nil
  | succ n ih => exact ih.space

theorem isPadding_breaks (col n : Nat) : IsPadding (breaks col n) := by
  induction n generalizing col with
  | zero => exact .nil
  | succ n ih =>
    unfold breaks
    split
    · exact (ih 0).feed
    · exact (ih 0).joined

theorem isPadding_padding (cursor start : Position) : IsPadding (padding cursor start) := by
  unfold padding
  split
  · exact (isPadding_breaks _ _).append (isPadding_spaces _)
  · exact isPadding_spaces _

theorem past_spaces (p : Position) (n : Nat) :
    p.past (List.replicate n ' ') = ⟨p.line, p.col + n⟩ := by
  have hfeed : '\n' ∉ List.replicate n ' ' := by simp
  rw [Position.past_of_no_feed p hfeed, List.length_replicate]

/-- Line breaks lead to the first column of a line below. -/
theorem past_breaks (p : Position) (n : Nat) :
    p.past (breaks p.col (n + 1)) = ⟨p.line + (n + 1), 0⟩ := by
  induction n generalizing p with
  | zero =>
    unfold breaks
    split <;> rfl
  | succ n ih =>
    have hbelow := ih ⟨p.line + 1, 0⟩
    have hline : p.line + 1 + (n + 1) = p.line + (n + 1 + 1) := by omega
    rw [hline] at hbelow
    unfold breaks
    split <;> exact hbelow

/-- Padding leads from the cursor to the start of a token that is not behind it. -/
theorem past_padding {cursor start : Position} (h : cursor ≤ start) :
    cursor.past (padding cursor start) = start := by
  rw [Position.le_iff] at h
  unfold padding
  split
  · rename_i hbelow
    obtain ⟨n, hn⟩ : ∃ n, start.line - cursor.line = n + 1 :=
      ⟨start.line - cursor.line - 1, by omega⟩
    have hline : cursor.line + (n + 1) = start.line := by omega
    rw [Position.past_append, hn, past_breaks, hline, past_spaces, Nat.zero_add]
  · rename_i hbelow
    have hline : cursor.line = start.line := by omega
    have hcol : cursor.col + (start.col - cursor.col) = start.col := by omega
    rw [past_spaces, hline, hcol]

/-- What is written for the first tokens comes first, and the others follow their cursor. -/
theorem written_append (cursor : Position) (front back : List Token) :
    written cursor (front ++ back) =
      written cursor front ++ written (cursorBehind cursor front) back := by
  induction front generalizing cursor with
  | nil => rfl
  | cons t rest ih =>
    rw [List.cons_append]
    cases hwrites : t.writesNothing with
    | true =>
      rw [written_cons_of_writesNothing cursor _ hwrites, ih,
        written_cons_of_writesNothing cursor rest hwrites,
        cursorBehind_cons_of_writesNothing cursor rest hwrites]
    | false =>
      rw [written_cons cursor _ hwrites, ih, written_cons cursor rest hwrites,
        cursorBehind_cons cursor rest hwrites]
      simp only [List.append_assoc]

section Placed

variable {cursor : Position} {tokens : List Token}

/-- The cursor is the place behind the text written so far. -/
theorem past_written (h : Placeable cursor tokens) :
    cursor.past (written cursor tokens) = cursorBehind cursor tokens := by
  induction tokens generalizing cursor with
  | nil => rfl
  | cons t rest ih =>
    cases hwrites : t.writesNothing with
    | true =>
      rw [written_cons_of_writesNothing cursor rest hwrites,
        cursorBehind_cons_of_writesNothing cursor rest hwrites]
      exact ih (h.sublist (List.sublist_cons_self t rest))
    | false =>
      have hstart := past_padding (h.start t (List.mem_cons_self ..))
      rw [written_cons cursor rest hwrites, cursorBehind_cons cursor rest hwrites,
        Position.past_append, Position.past_append, hstart]
      exact ih (h.tail hwrites)

theorem setOut_written {before : Text} (h : Placeable cursor tokens)
    (hcursor : Position.origin.past before = cursor) :
    SetOut before tokens (written cursor tokens) := by
  induction tokens generalizing cursor before with
  | nil => exact .nil
  | cons t rest ih =>
    cases hwrites : t.writesNothing with
    | true =>
      rw [written_cons_of_writesNothing cursor rest hwrites]
      exact .marker hwrites (ih (h.sublist (List.sublist_cons_self t rest)) hcursor)
    | false =>
      have hstart : Position.origin.past (before ++ padding cursor t.start) = t.start := by
        rw [Position.past_append, hcursor, past_padding (h.start t (List.mem_cons_self ..))]
      have hend : Position.origin.past (before ++ (padding cursor t.start ++ t.value)) =
          t.start.past t.value := by
        rw [← List.append_assoc, Position.past_append, hstart]
      rw [written_cons cursor rest hwrites]
      refine .token hwrites (isPadding_padding cursor t.start) ?_ (ih (h.tail hwrites) hend)
      rw [← past_origin_eq_endPlace, hstart]

end Placed

/-- The text written for a list of tokens consists of their texts, each at its start, and of padding
before them. What is written for the tokens before one of them ends at the cursor, which is on an
earlier line than that token or on the same line and not behind it. -/
theorem rebuild_stands {tokens : List Token} {text : Text} (h : rebuild tokens = .ok text) :
    SetOut [] tokens text ∧
    ∀ before t after, tokens = before ++ t :: after → t.writesNothing = false →
      ∃ front rest, rebuild before = .ok front ∧
        text = front ++ (padding front.endPlace t.start ++ (t.value ++ rest)) ∧
        front.endPlace.line ≤ t.start.line ∧
        (front.endPlace.line = t.start.line → front.endPlace.col ≤ t.start.col) := by
  have hplaceable := rebuild_eq_ok_iff.1 ⟨text, h⟩
  have htext : written .origin tokens = text := by
    rw [rebuild, textFrom_eq_written 0 hplaceable.start hplaceable.clears] at h
    exact Except.ok.inj h
  constructor
  · rw [← htext]
    exact setOut_written hplaceable rfl
  · rintro before t after rfl hwrites
    have hbefore := hplaceable.sublist (List.sublist_append_left before (t :: after))
    have hfront : rebuild before = .ok (written .origin before) :=
      textFrom_eq_written 0 hbefore.start hbefore.clears
    have hcursor : (written .origin before).endPlace = cursorBehind .origin before := by
      rw [← past_origin_eq_endPlace, past_written hbefore]
    have hle : cursorBehind .origin before ≤ t.start := by
      have hconcat : (before ++ [t]).Sublist (before ++ t :: after) :=
        (List.singleton_sublist.2 (List.mem_cons_self ..)).append_left before
      exact (placeable_concat_iff.1 (hplaceable.sublist hconcat)).2
    rw [Position.le_iff] at hle
    refine ⟨written .origin before, written (t.start.past t.value) after, hfront, ?_, ?_⟩
    · rw [← htext, written_append, written_cons _ after hwrites, hcursor]
    · rw [hcursor]
      omega

/-- A name below a string of two lines, a dedent with text, and a break in the middle of a line. -/
theorem rebuild_stands_of_string :
    let tokens : List Token := [⟨.string, ['"', 'é', '\n', '"'], ⟨1, 1⟩, ⟨2, 1⟩, none⟩,
      ⟨.dedent, [], ⟨2, 1⟩, ⟨2, 1⟩, none⟩, ⟨.dedent, ['d'], ⟨2, 2⟩, ⟨2, 3⟩, none⟩,
      ⟨.name, ['x'], ⟨4, 1⟩, ⟨4, 2⟩, none⟩]
    let text : Text :=
      [' ', '"', 'é', '\n', '"', ' ', 'd', '\\', '\n', '\n', ' ', 'x']
    rebuild tokens = .ok text ∧ SetOut [] tokens text ∧
      ∃ front rest, rebuild (tokens.take 3) = .ok front ∧
        text = front ++ (padding front.endPlace ⟨4, 1⟩ ++ (['x'] ++ rest)) ∧
        front.endPlace.line ≤ 4 ∧ (front.endPlace.line = 4 → front.endPlace.col ≤ 1) := by
  intro tokens text
  have htext : rebuild tokens = .ok text := by rfl
  obtain ⟨hset, hcursor⟩ := rebuild_stands htext
  exact ⟨htext, hset, hcursor (tokens.take 3) ⟨.name, ['x'], ⟨4, 1⟩, ⟨4, 2⟩, none⟩ [] rfl rfl⟩

end SourceTokens
