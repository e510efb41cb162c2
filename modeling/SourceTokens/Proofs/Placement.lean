import Mathlib.Data.List.Induction
import Mathlib.Order.Bounds.Defs
import SourceTokens.Proofs.Rebuilding
import SourceTokens.Proofs.Scrubbing

/-!
Which lists of tokens can be placed. The cursor stands where the text of the last token that writes
any ends. As long as all tokens could be placed no earlier text ends behind it, so a token fits the
cursor exactly if it fits all texts before it, and what can be placed is a matter of pairs. The
tokens of a source therefore stay placeable whichever of them are dropped.
-/

namespace SourceTokens

namespace Rebuild

def cursorBehind (cursor : Position) (tokens : List Token) : Position :=
  match (tokens.filter fun t => !t.writesNothing).getLast? with
  | some t => t.start.past t.value
  | none => cursor

theorem cursorBehind_cons_of_writesNothing (cursor : Position) {t : Token} (rest : List Token)
    (h : t.writesNothing = true) : cursorBehind cursor (t :: rest) = cursorBehind cursor rest := by
  simp [cursorBehind, h]

theorem cursorBehind_cons (cursor : Position) {t : Token} (rest : List Token)
    (h : t.writesNothing = false) :
    cursorBehind cursor (t :: rest) = cursorBehind (t.start.past t.value) rest := by
  simp only [cursorBehind, List.filter_cons, h, Bool.not_false, if_true, List.getLast?_cons]
  cases (rest.filter fun t => !t.writesNothing).getLast? <;> rfl

/-- Tokens none of which starts before a cursor or in the text of an earlier one. -/
structure Placeable (cursor : Position) (tokens : List Token) : Prop where
  start : ∀ t ∈ tokens, cursor ≤ t.start
  clears : tokens.Pairwise Clears

namespace Placeable

variable {cursor : Position} {tokens : List Token}

theorem sublist {kept : List Token} (h : Placeable cursor tokens) (hkept : kept.Sublist tokens) :
    Placeable cursor kept :=
  ⟨fun t ht => h.start t (hkept.subset ht), h.clears.sublist hkept⟩

/-- Behind the first token the others are placeable from where its text ends. -/
theorem tail {t : Token} {rest : List Token} (h : Placeable cursor (t :: rest))
    (hwrites : t.writesNothing = false) : Placeable (t.start.past t.value) rest := by
  obtain ⟨hclears, hrest⟩ := List.pairwise_cons.1 h.clears
  exact ⟨fun u hu => hclears u hu hwrites, hrest⟩

/-- The cursor has passed a place only if the text of some token has, or it did from the start. -/
theorem cursorBehind_le_iff (h : Placeable cursor tokens) (p : Position) :
    cursorBehind cursor tokens ≤ p ↔
      cursor ≤ p ∧ ∀ t ∈ tokens, t.writesNothing = false → t.start.past t.value ≤ p := by
  induction tokens generalizing cursor with
  | nil => simp [cursorBehind]
  | cons t rest ih =>
    rw [List.forall_mem_cons]
    cases hwrites : t.writesNothing with
    | true =>
      have hrest := h.sublist (List.sublist_cons_self t rest)
      rw [cursorBehind_cons_of_writesNothing cursor rest hwrites, ih hrest]
      simp
    | false =>
      have hcursor : cursor ≤ t.start.past t.value :=
        (h.start t (List.mem_cons_self ..)).trans (Position.le_past _ _)
      rw [cursorBehind_cons cursor rest hwrites, ih (h.tail hwrites)]
      constructor
      · intro hle
        exact ⟨hcursor.trans hle.1, fun _ => hle.1, hle.2⟩
      · intro hle
        exact ⟨hle.2.1 rfl, hle.2.2⟩

end Placeable

/-- One more token is placeable exactly if it does not start before the cursor. -/
theorem placeable_concat_iff {cursor : Position} {tokens : List Token} {t : Token} :
    Placeable cursor (tokens ++ [t]) ↔
      Placeable cursor tokens ∧ cursorBehind cursor tokens ≤ t.start := by
  constructor
  · intro h
    have hfront := h.sublist (List.sublist_append_left tokens [t])
    refine ⟨hfront, (hfront.cursorBehind_le_iff t.start).2 ⟨h.start t (by simp), ?_⟩⟩
    intro u hu
    exact (List.pairwise_append.1 h.clears).2.2 u hu t (List.mem_singleton_self t)
  · rintro ⟨hfront, hle⟩
    obtain ⟨hstart, hclears⟩ := (hfront.cursorBehind_le_iff t.start).1 hle
    constructor
    · intro u hu
      rcases List.mem_append.1 hu with hu | hu
      · exact hfront.start u hu
      · rw [List.mem_singleton.1 hu]
        exact hstart
    · refine List.pairwise_append.2 ⟨hfront.clears, List.pairwise_singleton _ t, ?_⟩
      intro u hu v hv
      rw [List.mem_singleton.1 hv]
      exact hclears u hu

/-- What is written for placeable tokens comes first, and the others follow their cursor. -/
theorem textFrom_append (index : Nat) {cursor : Position} {front : List Token}
    (h : Placeable cursor front) (back : List Token) :
    textFrom index cursor (front ++ back) =
      (textFrom (index + front.length) (cursorBehind cursor front) back).map
        (written cursor front ++ ·) := by
  induction front generalizing index cursor with
  | nil =>
    change textFrom index cursor back = (textFrom index cursor back).map id
    cases textFrom index cursor back <;> rfl
  | cons t rest ih =>
    have hplaced : ¬ t.start.before cursor := by
      rw [Position.before_iff_lt]
      exact not_lt.2 (h.start t (List.mem_cons_self ..))
    have hindex : index + (t :: rest).length = index + 1 + rest.length := by
      rw [List.length_cons]
      omega
    rw [List.cons_append, textFrom, if_neg hplaced, hindex]
    cases hwrites : t.writesNothing with
    | true =>
      rw [written_cons_of_writesNothing cursor rest hwrites,
        cursorBehind_cons_of_writesNothing cursor rest hwrites, if_pos rfl]
      exact ih (index + 1) (h.sublist (List.sublist_cons_self t rest))
    | false =>
      rw [written_cons cursor rest hwrites, cursorBehind_cons cursor rest hwrites,
        if_neg Bool.false_ne_true, ih (index + 1) (h.tail hwrites)]
      cases textFrom (index + 1 + rest.length) _ back with
      | error e => rfl
      | ok text => simp only [Except.map, List.append_assoc]

/-- The first token that starts behind the cursor, and the tokens before it. -/
structure FirstMisfit (cursor : Position) (tokens before : List Token) (t : Token) : Prop where
  split : ∃ after, tokens = before ++ t :: after
  placeable : Placeable cursor before
  behind : t.start < cursorBehind cursor before

theorem placeable_or_exists_misfit (cursor : Position) (tokens : List Token) :
    Placeable cursor tokens ∨ ∃ before t, FirstMisfit cursor tokens before t := by
  induction tokens using List.reverseRecOn with
  | nil => exact Or.inl ⟨by simp, List.Pairwise.nil⟩
  | append_singleton front last ih =>
    rcases ih with hfront | ⟨before, t, ⟨after, hsplit⟩, hbefore, hbehind⟩
    · rcases le_or_gt (cursorBehind cursor front) last.start with hle | hlt
      · exact Or.inl (placeable_concat_iff.2 ⟨hfront, hle⟩)
      · exact Or.inr ⟨front, last, ⟨[], rfl⟩, hfront, hlt⟩
    · refine Or.inr ⟨before, t, ⟨after ++ [last], ?_⟩, hbefore, hbehind⟩
      rw [hsplit, List.append_assoc, List.cons_append]

/-- The first misfit is reported with its index and the cursor. -/
theorem textFrom_of_misfit (index : Nat) {cursor : Position} {tokens before : List Token}
    {t : Token} (h : FirstMisfit cursor tokens before t) : textFrom index cursor tokens =
      .error ⟨index + before.length, t.kind, t.start, cursorBehind cursor before⟩ := by
  obtain ⟨after, rfl⟩ := h.split
  rw [textFrom_append index h.placeable, textFrom, if_pos (Position.before_iff_lt.2 h.behind)]
  rfl

end Rebuild

open Rebuild

/-- Whether the token at an index starts before the first line or in the text of an earlier one. -/
def Misplaced (tokens : List Token) (j : Nat) : Prop :=
  ∃ t, tokens[j]? = some t ∧ (t.start < .origin ∨
    ∃ i u, i < j ∧ tokens[i]? = some u ∧ u.writesNothing = false ∧ t.start < u.start.past u.value)

theorem not_misplaced_of_placeable {front back : List Token} (h : Placeable .origin front) {j : Nat}
    (hj : j < front.length) : ¬ Misplaced (front ++ back) j := by
  rintro ⟨t, ht, hmisfit⟩
  rw [List.getElem?_append_left hj] at ht
  rcases hmisfit with hstart | ⟨i, u, hij, hu, hwrites, hpast⟩
  · exact not_le.2 hstart (h.start t (List.mem_of_getElem? ht))
  · rw [List.getElem?_append_left (hij.trans hj)] at hu
    obtain ⟨hi, rfl⟩ := List.getElem?_eq_some_iff.1 hu
    obtain ⟨hj', rfl⟩ := List.getElem?_eq_some_iff.1 ht
    exact not_le.2 hpast (List.pairwise_iff_getElem.1 h.clears i j hi hj' hij hwrites)

namespace Rebuild.FirstMisfit

variable {tokens before : List Token} {t : Token}

theorem misplaced (h : FirstMisfit .origin tokens before t) : Misplaced tokens before.length := by
  obtain ⟨after, rfl⟩ := h.split
  refine ⟨t, by simp, ?_⟩
  have hbehind := not_le.2 h.behind
  rw [h.placeable.cursorBehind_le_iff] at hbehind
  by_cases hstart : t.start < .origin
  · exact Or.inl hstart
  · right
    obtain ⟨u, hu, hwrites, hpast⟩ :
        ∃ u ∈ before, u.writesNothing = false ∧ t.start < u.start.past u.value := by
      by_contra hnone
      refine hbehind ⟨not_lt.1 hstart, fun u hu hwrites => not_lt.1 fun hpast => ?_⟩
      exact hnone ⟨u, hu, hwrites, hpast⟩
    obtain ⟨i, hi, hget⟩ := List.getElem_of_mem hu
    refine ⟨i, u, hi, ?_, hwrites, hpast⟩
    rw [List.getElem?_append_left hi, List.getElem?_eq_getElem hi, hget]

theorem isLeast (h : FirstMisfit .origin tokens before t) :
    IsLeast {j | Misplaced tokens j} before.length := by
  refine ⟨h.misplaced, fun j hj => ?_⟩
  obtain ⟨after, rfl⟩ := h.split
  by_contra hlt
  exact not_misplaced_of_placeable h.placeable (not_le.1 hlt) hj

end Rebuild.FirstMisfit

/-- What an error tells of the tokens that could not be placed. -/
structure Reports (tokens : List Token) (e : PlacementError) : Prop where
  /-- No token before the reported one is misplaced. -/
  least : IsLeast {j | Misplaced tokens j} e.index
  token : ∃ t, tokens[e.index]? = some t ∧ e.kind = t.kind ∧ e.start = t.start
  /-- The last token with text before the reported one ends at the cursor. -/
  cursor : e.cursor = cursorBehind .origin (tokens.take e.index)

/-- Either all tokens are placeable and are placed, or an error reports the first that is not. -/
theorem rebuild_cases (tokens : List Token) :
    (Placeable .origin tokens ∧ rebuild tokens = .ok (written .origin tokens)) ∨
      ¬ Placeable .origin tokens ∧ ∃ e, rebuild tokens = .error e ∧ Reports tokens e := by
  rcases placeable_or_exists_misfit .origin tokens with h | ⟨before, t, h⟩
  · exact Or.inl ⟨h, textFrom_eq_written 0 h.start h.clears⟩
  · right
    obtain ⟨after, hsplit⟩ := h.split
    refine ⟨?_, _, textFrom_of_misfit 0 h, ?_, ?_, ?_⟩
    · intro hplaceable
      have hbefore : (before ++ [t]).Sublist tokens := by
        rw [hsplit]
        exact (List.singleton_sublist.2 (List.mem_cons_self ..)).append_left before
      have hle := (placeable_concat_iff.1 (hplaceable.sublist hbefore)).2
      exact not_le.2 h.behind hle
    · rw [Nat.zero_add]
      exact h.isLeast
    · exact ⟨t, by simp [hsplit], rfl, rfl⟩
    · simp [hsplit]

theorem rebuild_eq_ok_iff {tokens : List Token} :
    (∃ text, rebuild tokens = .ok text) ↔ Placeable .origin tokens := by
  rcases rebuild_cases tokens with ⟨hplaceable, htext⟩ | ⟨hplaceable, e, herror, -⟩
  · exact ⟨fun _ => hplaceable, fun _ => ⟨_, htext⟩⟩
  · refine ⟨?_, fun h => absurd h hplaceable⟩
    rintro ⟨text, htext⟩
    rw [herror] at htext
    cases htext

theorem Accepted.placeable {source : Text} {tokens : List Token} {pieces : List Piece}
    {levels : List Nat} (h : Accepted source tokens pieces levels) : Placeable .origin tokens :=
  rebuild_eq_ok_iff.1 ⟨_, rebuild_eq_written h⟩

/-- Tokens can be placed exactly if none starts before the first line or in the text of an earlier
one; the first that does is reported. So tokens can be dropped from a list that can be placed, as
scrubbing does, and the tokens of a source can be placed in any selection. -/
theorem rebuild_places (tokens : List Token) :
    ((∃ text, rebuild tokens = .ok text) ↔
      (∀ t ∈ tokens, .origin ≤ t.start) ∧
        tokens.Pairwise fun a b => a.writesNothing = false → a.start.past a.value ≤ b.start) ∧
    (∀ e, rebuild tokens = .error e → Reports tokens e) ∧
    (∀ kept, kept.Sublist tokens → (∃ text, rebuild tokens = .ok text) →
      ∃ text, rebuild kept = .ok text) ∧
    ∀ source, tokenize source = .ok tokens → (∃ text, rebuild tokens = .ok text) ∧
      (∃ text, rebuild (scrub tokens) = .ok text) ∧
      ∀ kept, kept.Sublist tokens → ∃ text, rebuild kept = .ok text := by
  refine ⟨?_, ?_, ?_, ?_⟩
  · rw [rebuild_eq_ok_iff]
    exact ⟨fun h => ⟨h.start, h.clears⟩, fun h => ⟨h.1, h.2⟩⟩
  · intro e he
    rcases rebuild_cases tokens with ⟨-, htext⟩ | ⟨-, e', herror, hreports⟩
    · rw [htext] at he
      cases he
    · rw [herror] at he
      cases he
      exact hreports
  · intro kept hkept h
    exact rebuild_eq_ok_iff.2 ((rebuild_eq_ok_iff.1 h).sublist hkept)
  · intro source hsource
    obtain ⟨pieces, levels, hacc⟩ := exists_accepted hsource
    have hkept : ∀ kept, kept.Sublist tokens → ∃ text, rebuild kept = .ok text :=
      fun kept h => rebuild_eq_ok_iff.2 (hacc.placeable.sublist h)
    exact ⟨hkept tokens (List.Sublist.refl tokens), hkept _ (scrub_sublist tokens), hkept⟩

/-- A name that starts in the line break of a dedent with text, and the tokens of a block. -/
theorem rebuild_places_of_marker_with_text :
    let front : List Token :=
      [⟨.name, ['x'], ⟨1, 0⟩, ⟨1, 1⟩, none⟩, ⟨.dedent, [], ⟨1, 3⟩, ⟨1, 3⟩, none⟩,
        ⟨.dedent, ['\n', ' '], ⟨1, 1⟩, ⟨2, 1⟩, none⟩]
    let tokens := front ++ [⟨.endMarker, [], ⟨2, 4⟩, ⟨2, 4⟩, none⟩,
      ⟨.name, ['y'], ⟨2, 0⟩, ⟨2, 1⟩, none⟩, ⟨.name, ['z'], ⟨0, 7⟩, ⟨0, 8⟩, none⟩]
    let e : PlacementError := ⟨4, .name, ⟨2, 0⟩, ⟨2, 1⟩⟩
    let source : Text := [' ', 'x', '\n', '#']
    let ofBlock : List Token :=
      [⟨.indent, [' '], ⟨1, 0⟩, ⟨1, 1⟩, some [' ', 'x', '\n']⟩,
        ⟨.name, ['x'], ⟨1, 1⟩, ⟨1, 2⟩, some [' ', 'x', '\n']⟩,
        ⟨.newline, ['\n'], ⟨1, 2⟩, ⟨1, 3⟩, some [' ', 'x', '\n']⟩,
        ⟨.comment, ['#'], ⟨2, 0⟩, ⟨2, 1⟩, some ['#']⟩,
        ⟨.lineBreak, [], ⟨2, 1⟩, ⟨2, 1⟩, some ['#']⟩,
        ⟨.dedent, [], ⟨3, 0⟩, ⟨3, 0⟩, none⟩, ⟨.endMarker, [], ⟨3, 0⟩, ⟨3, 0⟩, none⟩]
    (rebuild tokens = .error e ∧ Reports tokens e) ∧
      (rebuild front = .ok ['x', '\n', ' '] ∧ ∃ text, rebuild front.tail = .ok text) ∧
      tokenize source = .ok ofBlock ∧ ∃ text, rebuild (scrub ofBlock) = .ok text := by
  intro front tokens e source ofBlock
  have herror : rebuild tokens = .error e := by rfl
  have hfront : rebuild front = .ok ['x', '\n', ' '] := by rfl
  have hsource : tokenize source = .ok ofBlock := by rfl
  refine ⟨⟨herror, (rebuild_places tokens).2.1 e herror⟩, ⟨hfront, ?_⟩, hsource, ?_⟩
  · exact (rebuild_places front).2.2.1 front.tail (List.tail_sublist front) ⟨_, hfront⟩
  · exact ((rebuild_places ofBlock).2.2.2 source hsource).2.1

end SourceTokens
