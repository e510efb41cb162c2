import SourceTokens.Proofs.ByteOffsets
import SourceTokens.Proofs.FileChecks
import SourceTokens.Proofs.Places

/-!
Where a text first differs from the one it is compared with. Two texts have a beginning in common
and part behind it, and so do their bytes and their lines: the same line feeds stand in front of the
place where the characters part and of the one where the bytes do, and the lines part in the line
that these line feeds lead to. A check of a file reports the first line in which its text and the
text rebuilt from its tokens differ.
-/

namespace SourceTokens

/-- Two lists have a beginning in common and part behind it: they go on differently, or only one of
them goes on. -/
inductive PartBehind {α : Type} : List α → List α → List α → Prop
  | here (left right : List α) (h : left.head? ≠ right.head?) : PartBehind [] left right
  | cons (a : α) (common left right : List α) (h : PartBehind common left right) :
      PartBehind (a :: common) (a :: left) (a :: right)

namespace PartBehind

variable {α : Type} {common left right : List α}

theorem exists_of_ne (h : left ≠ right) : ∃ common, PartBehind common left right := by
  induction left generalizing right with
  | nil =>
    cases right with
    | nil => exact absurd rfl h
    | cons b right => exact ⟨[], .here _ _ (by simp)⟩
  | cons a left ih =>
    cases right with
    | nil => exact ⟨[], .here _ _ (by simp)⟩
    | cons b right =>
      by_cases hab : a = b
      · subst hab
        obtain ⟨common, hpart⟩ := ih fun heq => h (congrArg (a :: ·) heq)
        exact ⟨a :: common, .cons a common left right hpart⟩
      · exact ⟨[], .here _ _ fun heq => hab (Option.some.inj heq)⟩

theorem append (h : PartBehind common left right) (front : List α) :
    PartBehind (front ++ common) (front ++ left) (front ++ right) := by
  induction front with
  | nil => exact h
  | cons a front ih => exact .cons a _ _ _ ih

theorem prefixes (h : PartBehind common left right) : common <+: left ∧ common <+: right := by
  induction h with
  | here => exact ⟨List.nil_prefix, List.nil_prefix⟩
  | cons a common left right h ih =>
    exact ⟨List.cons_prefix_cons.2 ⟨rfl, ih.1⟩, List.cons_prefix_cons.2 ⟨rfl, ih.2⟩⟩

/-- Behind the common beginning one of the lists has what the other has not. -/
theorem getElem?_ne (h : PartBehind common left right) :
    left[common.length]? ≠ right[common.length]? := by
  induction h with
  | here left right h => rwa [List.head?_eq_getElem?, List.head?_eq_getElem?] at h
  | cons a common left right h ih => exact ih

end PartBehind

namespace Text

variable {shared expected actual : Text} {before : List Text}

/-- Two texts first differ in the line of a number: the lines above it are in both of them and are
the same, and the line itself is another one in each, or in one of them only. -/
structure DifferFirstIn (number : Nat) (expected actual : Text) : Prop where
  above : ∀ n, 1 ≤ n → n < number →
    ∃ line, physicalLine? expected n = some line ∧ physicalLine? actual n = some line
  differ : physicalLine? expected number ≠ physicalLine? actual number

theorem DifferFirstIn.ne {number : Nat} (h : DifferFirstIn number expected actual) :
    expected ≠ actual := by
  rintro rfl
  exact h.differ rfl

theorem DifferFirstIn.one_le {number : Nat} (h : DifferFirstIn number expected actual) :
    1 ≤ number :=
  Nat.one_le_iff_ne_zero.2 fun hzero => h.differ (by rw [hzero]; rfl)

theorem DifferFirstIn.unique {m n : Nat} (hm : DifferFirstIn m expected actual)
    (hn : DifferFirstIn n expected actual) : m = n := by
  have hle : ∀ {m n : Nat}, DifferFirstIn m expected actual → DifferFirstIn n expected actual →
      n ≤ m := by
    intro m n hm hn
    by_contra hlt
    obtain ⟨line, hexpected, hactual⟩ := hn.above m hm.one_le (Nat.not_le.1 hlt)
    exact hm.differ (hexpected.trans hactual.symm)
  exact Nat.le_antisymm (hle hn hm) (hle hm hn)

/-- Texts differ first in the line behind the lines that they have in common. -/
theorem differFirstIn_of_partBehind (h : PartBehind before (lines expected) (lines actual)) :
    DifferFirstIn (before.length + 1) expected actual := by
  obtain ⟨hexpected, hactual⟩ := h.prefixes
  refine ⟨fun n hone hlt => ?_, h.getElem?_ne⟩
  obtain ⟨k, rfl⟩ := Nat.exists_eq_add_of_le' hone
  have hk : k < before.length := Nat.lt_of_succ_lt_succ hlt
  exact ⟨before[k], List.prefix_iff_getElem?.1 hexpected k hk,
    List.prefix_iff_getElem?.1 hactual k hk⟩

/-- The first line of a text begins with the first character of the text. -/
theorem head?_lines (text : Text) : (lines text).head?.bind List.head? = text.head? := by
  cases text with
  | nil => rfl
  | cons c rest =>
    unfold lines
    split
    · rfl
    · split <;> rfl

theorem lines_cons_of_ne {c : Char} (hc : c ≠ '\n') (text : Text) :
    lines (c :: text) = (c :: (lines text).headD []) :: (lines text).tail := by
  rw [lines, if_neg hc]
  cases lines text <;> rfl

/-- Lines are not empty, so the characters of the first line say whether there is one. -/
theorem head?_lines_of_headD (h : (lines expected).headD [] = (lines actual).headD []) :
    (lines expected).head? = (lines actual).head? := by
  cases hleft : lines expected with
  | nil =>
    cases hright : lines actual with
    | nil => rfl
    | cons line later =>
      rw [hleft, hright] at h
      exact absurd h.symm (ne_nil_of_mem_lines (hright ▸ List.mem_cons_self))
  | cons line later =>
    cases hright : lines actual with
    | nil =>
      rw [hleft, hright] at h
      exact absurd h (ne_nil_of_mem_lines (hleft ▸ List.mem_cons_self))
    | cons line' later' =>
      rw [hleft, hright] at h
      exact congrArg some h

/-- A character in front of two texts, other than a line feed, leaves their lines in common as many
as they were. -/
theorem exists_partBehind_lines_cons {c : Char} (hc : c ≠ '\n')
    (h : PartBehind before (lines expected) (lines actual)) :
    ∃ before', PartBehind before' (lines (c :: expected)) (lines (c :: actual)) ∧
      before'.length = before.length := by
  have hheads := @head?_lines_of_headD expected actual
  rw [lines_cons_of_ne hc, lines_cons_of_ne hc]
  generalize lines expected = left at h hheads
  generalize lines actual = right at h hheads
  cases h with
  | here left right h =>
    refine ⟨[], .here _ _ fun heq => h (hheads ?_), rfl⟩
    exact (List.cons.inj (Option.some.inj heq)).2
  | cons line before left right h => exact ⟨(c :: line) :: before, .cons _ _ _ _ h, rfl⟩

/-- Texts that part behind a common beginning part in the line that its line feeds lead to. -/
theorem exists_partBehind_lines (h : PartBehind shared expected actual) :
    ∃ before, PartBehind before (lines expected) (lines actual) ∧
      before.length = shared.count '\n' := by
  induction h with
  | here expected actual h =>
    refine ⟨[], .here _ _ fun heq => h ?_, rfl⟩
    rw [← head?_lines, ← head?_lines, heq]
  | cons c shared expected actual h ih =>
    obtain ⟨before, hpart, hlength⟩ := ih
    by_cases hc : c = '\n'
    · subst hc
      refine ⟨['\n'] :: before, ?_, ?_⟩
      · exact .cons ['\n'] before _ _ hpart
      · rw [List.length_cons, hlength, List.count_cons_self]
    · obtain ⟨before', hpart', hlength'⟩ := exists_partBehind_lines_cons hc hpart
      refine ⟨before', hpart', ?_⟩
      rw [hlength', hlength, List.count_cons_of_ne hc]

end Text

namespace Utf8

variable {shared expected actual : Text} {common : List UInt8}

/-- The bytes of a character are the beginning of those of no text but one that begins with it. -/
theorem eq_of_encode_begins {c d : Char} {rest : Text}
    (h : encodeChar c <+: encode (d :: rest)) : c = d := by
  obtain ⟨more, hmore⟩ := h
  have hchunks := congrArg (chunksFrom none) hmore
  rw [encode_cons, chunksFrom_encodeChar, chunksFrom_encodeChar] at hchunks
  exact Chunk.char.inj (List.cons.inj hchunks).1

/-- A line feed is a byte of its own, and it is in the bytes of no other character. -/
theorem not_feed_of_ne {c : Char} (hc : c ≠ '\n') : 10 ∉ encodeChar c := by
  rcases Nat.lt_or_ge c.toNat 0x80 with hlow | hhigh
  · rw [encodeChar_of_ascii hlow, List.mem_singleton]
    intro heq
    have hnumber := congrArg UInt8.toNat heq
    rw [toNat_ofNat_of_lt (Nat.lt_trans hlow (by decide))] at hnumber
    exact hc (Char.toNat_inj.1 hnumber.symm)
  · intro hmem
    exact absurd (high_of_not_ascii hhigh 10 hmem) (by decide)

theorem count_encodeChar (c : Char) : (encodeChar c).count 10 = [c].count '\n' := by
  by_cases hc : c = '\n'
  · subst hc
    rfl
  · rw [List.count_eq_zero.2 (not_feed_of_ne hc), List.count_cons_of_ne hc, List.count_nil]

/-- Where two texts part at once, their bytes part within the first characters, and no line feed
stands before that place. -/
theorem not_feed_of_partBehind (hne : expected.head? ≠ actual.head?)
    (h : PartBehind common (encode expected) (encode actual)) : 10 ∉ common := by
  obtain ⟨hexpected, hactual⟩ := h.prefixes
  cases expected with
  | nil =>
    rw [List.prefix_nil.1 hexpected]
    exact List.not_mem_nil
  | cons c expected =>
    cases actual with
    | nil =>
      rw [List.prefix_nil.1 hactual]
      exact List.not_mem_nil
    | cons d actual =>
      -- With all bytes of its first character in common, either text would begin with it.
      have hshort : ¬ encodeChar c <+: common := fun hall =>
        hne (congrArg some (eq_of_encode_begins (hall.trans hactual)))
      by_cases hc : c = '\n'
      · subst hc
        cases common with
        | nil => exact List.not_mem_nil
        | cons b common =>
          obtain rfl : b = 10 := (List.cons_prefix_cons.1 hexpected).1
          exact absurd ⟨common, rfl⟩ hshort
      · have hwithin : common <+: encodeChar c :=
          (List.prefix_or_prefix_of_prefix hexpected
            ⟨encode expected, (encode_cons c expected).symm⟩).resolve_right hshort
        exact fun hmem => not_feed_of_ne hc (hwithin.subset hmem)

/-- The bytes of texts that part behind a common beginning part, and the line feeds before that
place are those of the common beginning. -/
theorem exists_partBehind_encode (h : PartBehind shared expected actual) :
    ∃ common, PartBehind common (encode expected) (encode actual) ∧
      common.count 10 = shared.count '\n' := by
  induction h with
  | here expected actual h =>
    -- The bytes may have more in common than the characters, but no line feed.
    have hne : encode expected ≠ encode actual := by
      intro heq
      rw [encode_injective heq] at h
      exact h rfl
    obtain ⟨common, hpart⟩ := PartBehind.exists_of_ne hne
    refine ⟨common, hpart, ?_⟩
    rw [List.count_eq_zero.2 (not_feed_of_partBehind h hpart), List.count_nil]
  | cons c shared expected actual h ih =>
    obtain ⟨common, hpart, hcount⟩ := ih
    refine ⟨encodeChar c ++ common, ?_, ?_⟩
    · rw [encode_cons, encode_cons]
      exact hpart.append (encodeChar c)
    · rw [List.count_append, hcount, count_encodeChar, ← List.count_append]
      rfl

end Utf8

namespace RoundTrip

open Text ByteLexer Utf8

variable {shared expected actual : Text} {common left right : List UInt8}

theorem differenceFrom_of_partBehind (h : PartBehind shared expected actual) (line : Nat) :
    differenceFrom line expected actual = line + shared.count '\n' := by
  induction h generalizing line with
  | here expected actual h =>
    cases expected with
    | nil => simp only [differenceFrom, List.count_nil, Nat.add_zero]
    | cons a expected =>
      cases actual with
      | nil => simp only [differenceFrom, List.count_nil, Nat.add_zero]
      | cons b actual =>
        rw [differenceFrom, if_neg fun hab => h (congrArg some hab)]
        rfl
  | cons c shared expected actual h ih =>
    rw [differenceFrom, if_pos rfl, ih]
    by_cases hc : c = '\n'
    · rw [if_pos hc, hc, List.count_cons_self, Nat.add_assoc, Nat.add_comm 1]
    · rw [if_neg hc, List.count_cons_of_ne hc]

def offsetOfDifference (expected actual : List UInt8) : Nat :=
  ((expected.zip actual).findIdx? fun bytes => bytes.1 != bytes.2).getD
    (min expected.length actual.length)

def byteLineOfDifference (expected actual : List UInt8) : Except Fault Nat :=
  let offset := offsetOfDifference expected actual
  if expected.length < offset then .error .outOfBounds
  else .ok ((expected.take offset).count 10 + 1)

theorem offsetOfDifference_of_partBehind (h : PartBehind common left right) :
    offsetOfDifference left right = common.length := by
  induction h with
  | here left right h =>
    cases left with
    | nil =>
      rw [offsetOfDifference, List.length_nil, Nat.zero_min]
      rfl
    | cons a left =>
      cases right with
      | nil => rfl
      | cons b right =>
        have hne : a ≠ b := fun hab => h (congrArg some hab)
        rw [offsetOfDifference, List.zip_cons_cons, List.findIdx?_cons, if_pos (bne_iff_ne.2 hne)]
        rfl
  | cons b common left right h ih =>
    rw [offsetOfDifference, List.zip_cons_cons, List.findIdx?_cons, if_neg (by simp),
      List.length_cons, List.length_cons, Nat.add_min_add_right, Option.getD_map]
    exact congrArg (· + 1) ih

theorem byteLineOfDifference_of_partBehind (h : PartBehind common left right) :
    byteLineOfDifference left right = .ok (common.count 10 + 1) := by
  have hoffset := offsetOfDifference_of_partBehind h
  obtain ⟨more, rfl⟩ := h.prefixes.1
  have hle : common.length ≤ (common ++ more).length := by simp
  simp only [byteLineOfDifference, hoffset, List.take_left, if_neg (Nat.not_lt.2 hle)]

/-- The line that is counted for two texts is the first in which they differ. -/
theorem differFirstIn_lineOfDifference (h : expected ≠ actual) :
    DifferFirstIn (lineOfDifference expected actual) expected actual := by
  obtain ⟨shared, hpart⟩ := PartBehind.exists_of_ne h
  obtain ⟨before, hlines, hlength⟩ := exists_partBehind_lines hpart
  have hdiffer := differFirstIn_of_partBehind hlines
  rwa [hlength, Nat.add_comm, ← differenceFrom_of_partBehind hpart] at hdiffer

/-- Counting among bytes gives the line that counting among characters gives, and no offset is out of
bounds. -/
theorem byteLineOfDifference_encode (h : expected ≠ actual) :
    byteLineOfDifference (encode expected) (encode actual) =
      .ok (lineOfDifference expected actual) := by
  obtain ⟨shared, hpart⟩ := PartBehind.exists_of_ne h
  obtain ⟨common, hbytes, hcount⟩ := exists_partBehind_encode hpart
  rw [byteLineOfDifference_of_partBehind hbytes, hcount, lineOfDifference,
    differenceFrom_of_partBehind hpart, Nat.add_comm]

/-- A check reports a line exactly when the text of the file and the text rebuilt from its tokens
first differ in it. -/
theorem check_eq_differs_iff (bytes : List UInt8) (line : Nat) :
    check bytes = .differs line ↔ ∃ source tokens text, Utf8.decode? bytes = some source ∧
      tokenize source = .ok tokens ∧ rebuild tokens = .ok text ∧
        DifferFirstIn line source text := by
  constructor
  · intro h
    have hfails : Fails bytes := (isFailure_iff bytes).1 (by rw [h]; rfl)
    cases hfails with
    | notUtf8 hread =>
      simp only [check, FileTree.text, hread] at h
      cases h
    | rejected source e hread htokens =>
      rw [check_of_text hread, checkText, htokens] at h
      cases h
    | misplaced source tokens e hread htokens hrebuild =>
      simp only [check_of_text hread, checkText, htokens, hrebuild] at h
      cases h
    | differs source tokens text hread htokens hrebuild hne =>
      simp only [check_of_text hread, checkText, htokens, hrebuild, if_neg hne] at h
      cases h
      exact ⟨source, tokens, text, hread, htokens, hrebuild,
        differFirstIn_lineOfDifference (Ne.symm hne)⟩
  · rintro ⟨source, tokens, text, hread, htokens, hrebuild, hdiffer⟩
    have hne := hdiffer.ne
    rw [check_of_text hread, checkText, htokens]
    simp only [hrebuild, if_neg (Ne.symm hne)]
    rw [hdiffer.unique (differFirstIn_lineOfDifference hne)]

/-- Of two different texts, one line is the first in which they differ: the lines above it are in
both of them and are the same, and the line itself is another one in each, or in one of them only.
That line is counted, and the same one by the bytes of the texts, whose offsets stay in bounds. -/
theorem lineOfDifference_first (h : expected ≠ actual) :
    byteLineOfDifference (encode expected) (encode actual) =
        .ok (lineOfDifference expected actual) ∧
      DifferFirstIn (lineOfDifference expected actual) expected actual ∧
      ∀ line, DifferFirstIn line expected actual → line = lineOfDifference expected actual := by
  have hfirst := differFirstIn_lineOfDifference h
  exact ⟨byteLineOfDifference_encode h, hfirst, fun line hline => hline.unique hfirst⟩

/-- The first bytes in which the texts differ are the second ones of two characters on the second
line, which has a line feed in one of the texts only. -/
theorem lineOfDifference_first_inside_character :
    let expected := "a\né\nb".toList
    let actual := "a\nè".toList
    expected ≠ actual ∧
      byteLineOfDifference (encode expected) (encode actual) = .ok 2 ∧
      DifferFirstIn 2 expected actual ∧
      ∀ line, DifferFirstIn line expected actual → line = 2 := by
  intro expected actual
  have hne : expected ≠ actual := by decide
  have hline : lineOfDifference expected actual = 2 := by decide
  have hfirst := lineOfDifference_first hne
  rw [hline] at hfirst
  exact ⟨hne, hfirst⟩

-- A text that goes on behind the line feed in which the other one ends.
example : lineOfDifference "a\n".toList "a\nb\n".toList = 2 := by decide

end RoundTrip

end SourceTokens
