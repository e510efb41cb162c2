import SourceTokens.Proofs.LexemeCuts
import SourceTokens.Proofs.Locality
import SourceTokens.Proofs.StringEnds

/-!
What the kind of a token says about its text. Names and operators are maximal: a name ends where its
word does, and no longer operator begins where one stands. Both are taken at the front of what is
left of a line, so what stands behind them on the line is known. Strings end in the quotes that they
open with, indents are the blanks in front of the code of a line, and marks cover nothing.
-/

namespace SourceTokens

structure Token.Between (source : Text) (t : Token) (lead rest : Text) : Prop where
  line : Text.physicalLine? source t.start.line = some (lead ++ (t.value ++ rest))
  col : t.start.col = lead.length

/-- What the kind of a token says about its text and about what stands behind it on its line. -/
structure Token.HasForm (source : Text) (t : Token) : Prop where
  name : t.kind = .name → ∃ lead c more rest, t.Between source lead rest ∧ t.value = c :: more ∧
    Word.isStart c ∧ more.all Word.isContinue ∧ ∀ d ∈ rest.head?, Word.isContinue d = false
  operator : t.kind = .operator → t.value ∈ Operator.table ∧ ∃ lead rest,
    t.Between source lead rest ∧
    (∀ entry ∈ Operator.table, entry <+: t.value ++ rest → entry.length ≤ t.value.length) ∧
    (t.value = ['.'] → ∀ d ∈ rest.head?, d.isDigit = false)
  indent : t.kind = .indent → t.value ≠ [] ∧ t.value.all Text.isBlank ∧ ∃ c rest,
    t.Between source [] (c :: rest) ∧ Text.isBlank c = false
  mark : t.kind.isStructural → t.value = [] ∧ t.start = t.stop
  string : t.kind = .string → ∃ letters body, ∃ d : StringLiteral.Delimiter,
    StringLiteral.isLetters letters ∧ t.value = letters ++ (d.text ++ (body ++ d.text))

namespace LineScan

variable {depth : Nat} {c : Char} {rest after value : Text}

/-- A name ends where its word does. -/
theorem name_of_taken (h : Taken depth c rest (.lexeme .name value) after) :
    ∃ more, value = c :: more ∧ Word.isStart c ∧ more.all Word.isContinue ∧
      ∀ d ∈ after.head?, Word.isContinue d = false := by
  obtain ⟨hstart, hvalue, hafter⟩ := h.takenAs
  have hc := Word.isContinue_of_isStart hstart
  refine ⟨rest.takeWhile Word.isContinue, ?_, hstart, List.all_takeWhile, fun d hd => ?_⟩
  · rw [hvalue, List.takeWhile_cons_of_pos hc]
  · have hhead := List.head?_dropWhile_not Word.isContinue (c :: rest)
    rw [← hafter, Option.mem_def.1 hd] at hhead
    exact hhead

/-- An operator is the longest one that begins where it stands, and a point stands before no
digit. -/
theorem operator_of_taken (h : Taken depth c rest (.lexeme .operator value) after) :
    value ∈ Operator.table ∧
      (∀ entry ∈ Operator.table, entry <+: value ++ after → entry.length ≤ value.length) ∧
      (value = ['.'] → ∀ d ∈ after.head?, d.isDigit = false) := by
  obtain ⟨hnumber, hlongest⟩ := h.takenAs
  have hcover : value ++ after = c :: rest := h.cover
  refine ⟨List.mem_of_find?_eq_some hlongest, fun entry hentry hstarts => ?_, ?_⟩
  · rw [hcover] at hstarts
    exact Operator.length_le_of_longest? hlongest hentry hstarts
  · rintro rfl d hd
    obtain ⟨rfl, hrest⟩ := List.cons.inj hcover
    have hrest : after = rest := hrest
    rw [Bool.eq_false_iff]
    intro hdigit
    refine Number.length_ne_zero_iff.2 (.inr ⟨rfl, ?_⟩) hnumber
    rwa [← hrest, Option.mem_def.1 hd]

end LineScan

/-- The place on its line of a token that is cut there. -/
theorem CutAt.between {source line lead rest : Text} {pieces front back head : List Piece}
    {levels : List Nat} {above below : List Text} {s : Segmentation.State} {t : Token}
    (h : CutAt source pieces levels above line below front s back)
    (hstart : t.start = Position.origin.past (Piece.cover (front ++ head)))
    (hhead : Piece.cover head = s.carry.text ++ lead) (hline : line = lead ++ (t.value ++ rest))
    (hne : t.value ++ rest ≠ []) : t.Between source lead rest := by
  have hlead : '\n' ∉ lead := by
    have hone := h.oneLine
    rw [hline] at hone
    exact hone.left hne
  rw [h.past_lead hhead hlead] at hstart
  constructor
  · rw [hstart, ← hline]
    exact h.physicalLine
  · rw [hstart]

namespace Accepted

open Segmentation LineScan StringLiteral

variable {source : Text} {tokens : List Token} {pieces : List Piece} {levels : List Nat} {t : Token}

/-- Names, numbers and operators are taken at the front of what is left of their line. -/
theorem exists_taken (h : Accepted source tokens pieces levels) (ht : t ∈ tokens)
    (hkind : t.kind ∈ [.name, .number, .operator]) :
    ∃ lead after depth c rest, t.Between source lead after ∧
      Taken depth c rest (.lexeme t.kind t.value) after := by
  have hplain : t.kind ≠ .newline ∧ ¬ t.kind.isStructural := by
    simp only [List.mem_cons, List.not_mem_nil, or_false] at hkind
    rcases hkind with hkind | hkind | hkind <;> rw [hkind] <;> decide
  obtain ⟨before, kind, text, behind, hpieces, rfl⟩ :=
    h.exists_lexeme_of_kind ht hplain.1 hplain.2
  obtain ⟨above, line, below, front, s, back, head, hat, rfl, -, hcut⟩ :=
    h.exists_lexemeCut hpieces
  obtain ⟨lead, c, rest, after, depth, hhead, hline, htaken⟩ := hcut.exists_taken hkind
  have hcover : text ++ after = c :: rest := htaken.cover
  rw [← hcover] at hline
  have hne : text ++ after ≠ [] := by simp [hcover]
  exact ⟨lead, after, depth, c, rest, hat.between rfl hhead hline hne, htaken⟩

/-- An indent is what stands in front of the code of its line. -/
theorem indent_form (h : Accepted source tokens pieces levels) (ht : t ∈ tokens)
    (hkind : t.kind = .indent) :
    t.value ≠ [] ∧ t.value.all Text.isBlank ∧ ∃ c rest, t.Between source [] (c :: rest) ∧
      Text.isBlank c = false := by
  obtain ⟨before, kind, text, behind, hpieces, rfl⟩ :=
    h.exists_lexeme_of_kind ht (by simp [hkind]) (by simp [hkind, TokenKind.isStructural])
  obtain rfl : kind = .indent := hkind
  obtain ⟨above, line, below, front, s, back, head, hat, rfl, -, hcut⟩ :=
    h.exists_lexemeCut hpieces
  obtain ⟨rfl, hcarry, hblanks, hwidth, c, rest, hline, hc⟩ := hcut.exists_code
  refine ⟨?_, hblanks, c, rest, hat.between rfl ?_ hline (by simp), hc.1⟩
  · rintro rfl
    exact Nat.lt_irrefl 0 hwidth
  · rw [hcarry]
    rfl

/-- A mark covers nothing. -/
theorem mark_form (h : Accepted source tokens pieces levels) (ht : t ∈ tokens)
    (hmark : t.kind.isStructural) : t.value = [] ∧ t.start = t.stop := by
  rcases h.mem_cases ht with hplace | hsupplied | hclosing
  · obtain ⟨before, kind, text, after, hpieces, rfl⟩ := Piece.exists_lexeme_of_mem_place hplace
    obtain rfl : text = [] := h.shaped.each (.lexeme kind text) (by simp [hpieces]) hmark
    exact ⟨rfl, rfl⟩
  · rw [(endsStatement_of_supplied hsupplied).kind] at hmark
    cases hmark
  · obtain ⟨-, hvalue, -, hstop⟩ := mem_closing hclosing
    exact ⟨hvalue, hstop.symm⟩

/-- A string ends in the quotes that it opens with. -/
theorem string_form (h : Accepted source tokens pieces levels) (ht : t ∈ tokens)
    (hkind : t.kind = .string) :
    ∃ letters body, ∃ d : Delimiter, isLetters letters ∧
      t.value = letters ++ (d.text ++ (body ++ d.text)) := by
  obtain ⟨-, -, -, -, d, letters, behind, hletters, hvalue, hclosed⟩ := h.closed_of_string ht hkind
  obtain ⟨body, rfl⟩ := exists_closer_of_split hclosed.split_eq
  exact ⟨letters, body, d, hletters, hvalue⟩

theorem hasForm (h : Accepted source tokens pieces levels) (ht : t ∈ tokens) :
    t.HasForm source where
  name hkind := by
    obtain ⟨lead, after, depth, c, rest, hbetween, htaken⟩ := h.exists_taken ht (by simp [hkind])
    rw [hkind] at htaken
    obtain ⟨more, hvalue, hstart, hmore, hends⟩ := name_of_taken htaken
    exact ⟨lead, c, more, after, hbetween, hvalue, hstart, hmore, hends⟩
  operator hkind := by
    obtain ⟨lead, after, depth, c, rest, hbetween, htaken⟩ := h.exists_taken ht (by simp [hkind])
    rw [hkind] at htaken
    obtain ⟨htable, hlongest, hpoint⟩ := operator_of_taken htaken
    exact ⟨htable, lead, after, hbetween, hlongest, hpoint⟩
  indent := h.indent_form ht
  mark := h.mark_form ht
  string := h.string_form ht

end Accepted

/-- Every token of an accepted source has the form that its kind says, and names and operators are
maximal. -/
theorem tokenize_forms {source : Text} {tokens : List Token} (h : tokenize source = .ok tokens) :
    ∀ t ∈ tokens, t.HasForm source := by
  obtain ⟨pieces, levels, hacc⟩ := exists_accepted h
  exact fun t => hacc.hasForm

/-- The letters in front of a quote are no name, three characters are one operator, and the point in
front of a name is one, too. -/
theorem tokenize_forms_of_block :
    let first : Text := ['i', 'f', ' ', 'ß', ':', '\n']
    let second : Text :=
      ['\t', 'R', 'b', '\x27', 'é', '\x27', '<', '<', '=', 'x', '.', 'r', '\n']
    let tokens : List Token :=
      [⟨.name, ['i', 'f'], ⟨1, 0⟩, ⟨1, 2⟩, some first⟩,
        ⟨.name, ['ß'], ⟨1, 3⟩, ⟨1, 4⟩, some first⟩,
        ⟨.operator, [':'], ⟨1, 4⟩, ⟨1, 5⟩, some first⟩,
        ⟨.newline, ['\n'], ⟨1, 5⟩, ⟨1, 6⟩, some first⟩,
        ⟨.indent, ['\t'], ⟨2, 0⟩, ⟨2, 1⟩, some second⟩,
        ⟨.string, ['R', 'b', '\x27', 'é', '\x27'], ⟨2, 1⟩, ⟨2, 6⟩, some second⟩,
        ⟨.operator, ['<', '<', '='], ⟨2, 6⟩, ⟨2, 9⟩, some second⟩,
        ⟨.name, ['x'], ⟨2, 9⟩, ⟨2, 10⟩, some second⟩,
        ⟨.operator, ['.'], ⟨2, 10⟩, ⟨2, 11⟩, some second⟩,
        ⟨.name, ['r'], ⟨2, 11⟩, ⟨2, 12⟩, some second⟩,
        ⟨.newline, ['\n'], ⟨2, 12⟩, ⟨2, 13⟩, some second⟩,
        ⟨.dedent, [], ⟨3, 0⟩, ⟨3, 0⟩, none⟩, ⟨.endMarker, [], ⟨3, 0⟩, ⟨3, 0⟩, none⟩]
    tokenize (first ++ second) = .ok tokens ∧ ∀ t ∈ tokens, t.HasForm (first ++ second) := by
  intro first second tokens
  have htokens : tokenize (first ++ second) = .ok tokens := by rfl
  exact ⟨htokens, tokenize_forms htokens⟩

end SourceTokens
