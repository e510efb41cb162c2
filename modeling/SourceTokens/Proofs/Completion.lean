import SourceTokens.Proofs.Concatenation

/-!
Sources that are written on. Text behind a line with code leaves the indentation of that line as it
is, so an inconsistent dedent stays where it was found. Every other source can be completed: after a
line feed, one more line closes the string and the brackets that are still open and ends the
statement.
-/

namespace SourceTokens

namespace Text

/-- A text falls into whole lines and a last line without a line feed, which may be empty. -/
theorem exists_whole_lines (text : Text) :
    ∃ whole last, text = whole ++ last ∧ (whole = [] ∨ whole.getLast? = some '\n') ∧
      '\n' ∉ last := by
  obtain ⟨full, tail, hlines, hfull, htail⟩ := exists_lines text
  have hflat := flatten_lines text
  rw [hlines, List.flatten_append] at hflat
  refine ⟨full.flatten, tail.flatten, hflat.symm, ?_, ?_⟩
  · rcases List.eq_nil_or_concat full with rfl | ⟨front, line, rfl⟩
    · exact Or.inl rfl
    · obtain ⟨body, rfl, -⟩ := hfull line (by simp)
      right
      simp
  · rcases htail with rfl | ⟨line, rfl, -, hline⟩
    · simp
    · simpa using hline

/-- A line without a line feed is the beginning of a physical line, whatever follows it. -/
theorem exists_lines_append_of_open {line : Text} (hfeed : '\n' ∉ line) (hne : line ≠ [])
    (more : Text) : ∃ rest later, lines (line ++ more) = (line ++ rest) :: later := by
  induction line with
  | nil => exact absurd rfl hne
  | cons c line ih =>
    obtain ⟨hc, hline⟩ := List.ne_and_not_mem_of_not_mem_cons hfeed
    simp only [List.cons_append, lines, if_neg (Ne.symm hc)]
    by_cases hnil : line = []
    · subst hnil
      rw [List.nil_append]
      split
      · exact ⟨[], [], rfl⟩
      · rename_i first later hlines
        exact ⟨first, later, rfl⟩
    · obtain ⟨rest, later, hlines⟩ := ih hline hnil
      rw [hlines]
      exact ⟨rest, later, rfl⟩

theorem lines_of_open {line : Text} (hfeed : '\n' ∉ line) (hne : line ≠ []) :
    lines line = [line] := by
  induction line with
  | nil => exact absurd rfl hne
  | cons c line ih =>
    obtain ⟨hc, hline⟩ := List.ne_and_not_mem_of_not_mem_cons hfeed
    rw [lines, if_neg (Ne.symm hc)]
    by_cases hnil : line = []
    · subst hnil
      rfl
    · rw [ih hline hnil]

theorem lines_of_feed {body : Text} (hfeed : '\n' ∉ body) :
    lines (body ++ ['\n']) = [body ++ ['\n']] := by
  induction body with
  | nil => rfl
  | cons c body ih =>
    obtain ⟨hc, hbody⟩ := List.ne_and_not_mem_of_not_mem_cons hfeed
    rw [List.cons_append, lines, if_neg (Ne.symm hc), ih hbody]

end Text

namespace Segmentation

open Indentation LineScan StringLiteral

/-- Text behind a line that cannot be cut does not help. -/
theorem cutLine_append_of_error {s : State} {line : Text} {column : Nat}
    (h : cutLine s line = .error column) (more : Text) :
    cutLine s (line ++ more) = .error column := by
  obtain ⟨hcarry, hdepth, hstart⟩ := cutLine_eq_error_iff.1 h
  refine cutLine_eq_error_iff.2 ⟨hcarry, hdepth, ?_⟩
  cases hstart with
  | misfit blanks c rest hblanks hline hc hwidth hclosed =>
    refine .misfit blanks c (rest ++ more) hblanks ?_ hc hwidth hclosed
    rw [hline, List.append_assoc, List.cons_append]

/-- A line does not become wrong by its line feed. -/
theorem cutLine_error_of_feed {s : State} {line : Text} {column : Nat}
    (h : cutLine s (line ++ ['\n']) = .error column) :
    line ≠ [] ∧ cutLine s line = .error column := by
  obtain ⟨hcarry, hdepth, hstart⟩ := cutLine_eq_error_iff.1 h
  cases hstart with
  | misfit blanks c rest hblanks hline hc hwidth hclosed =>
    rcases List.eq_nil_or_concat rest with rfl | ⟨front, d, rfl⟩
    · obtain ⟨-, hlast⟩ := List.append_inj' hline rfl
      obtain rfl : '\n' = c := List.singleton_inj.1 hlast
      exact absurd hc.2.2 (by decide)
    · rw [List.concat_eq_append, ← List.cons_append, ← List.append_assoc] at hline
      obtain ⟨hfront, -⟩ := List.append_inj' hline rfl
      refine ⟨by simp [hfront], cutLine_eq_error_iff.2 ⟨hcarry, hdepth, ?_⟩⟩
      exact .misfit blanks c front hblanks hfront hc hwidth hclosed

/-- An inconsistent dedent stays where it is, whatever is written behind it. -/
theorem cutLines_lines_append_of_error {s : State} {text : Text} {p : Position}
    (h : cutLines s (Text.lines text) = .error p) (more : Text) :
    cutLines s (Text.lines (text ++ more)) = .error p := by
  obtain ⟨whole, last, rfl, hwhole, hlast⟩ := Text.exists_whole_lines text
  rw [Text.lines_append hwhole] at h
  rw [List.append_assoc, Text.lines_append hwhole]
  cases hfront : cutLines s (Text.lines whole) with
  | error q =>
    rw [cutLines_append_of_error hfront] at h ⊢
    exact h
  | ok r =>
    obtain ⟨front, middle⟩ := r
    rw [cutLines_append hfront] at h ⊢
    by_cases hnil : last = []
    · subst hnil
      cases h
    · rw [Text.lines_of_open hlast hnil] at h
      obtain ⟨rest, later, hlines⟩ := Text.exists_lines_append_of_open hlast hnil more
      rw [hlines]
      cases hopen : cutLine middle last with
      | error column =>
        have hmisfit := cutLine_append_of_error hopen rest
        simp only [cutLines, hopen, hmisfit] at h ⊢
        exact h
      | ok t => simp [cutLines, hopen] at h

/-- What can be cut still can with a line feed behind it. -/
theorem exists_cutLines_feed {s last : State} {text : Text} {pieces : List Piece}
    (h : cutLines s (Text.lines text) = .ok (pieces, last)) :
    ∃ r, cutLines s (Text.lines (text ++ ['\n'])) = .ok r := by
  obtain ⟨whole, line, rfl, hwhole, hline⟩ := Text.exists_whole_lines text
  rw [Text.lines_append hwhole] at h
  rw [List.append_assoc, Text.lines_append hwhole, Text.lines_of_feed hline]
  obtain ⟨front, middle, back, -, hfront, hback⟩ := exists_cutLines_of_append h
  rw [cutLines_append hfront]
  cases hfeed : cutLines middle [line ++ ['\n']] with
  | ok r => exact ⟨_, rfl⟩
  | error p =>
    exfalso
    cases hcut : cutLine middle (line ++ ['\n']) with
    | ok t => simp [cutLines, hcut] at hfeed
    | error column =>
      obtain ⟨hne, herror⟩ := cutLine_error_of_feed hcut
      rw [Text.lines_of_open hline hne] at hback
      simp [cutLines, herror] at hback

/-- A line that closes what is open behind a run of lines and ends the statement. -/
def closer (s : State) : Text :=
  let quotes : Text :=
    match s.carry with
    | .string d _ => d.text
    | _ => []
  quotes ++ (List.replicate s.depth ')' ++ ['\n'])

theorem front_closer (depth : Nat) (rest : Text) :
    front depth ')' rest = .piece (.lexeme .operator [')']) rest := by
  have hletters : lettersBeforeQuote (')' :: rest) = none := by
    rcases rest with _ | ⟨c, _ | ⟨d, rest⟩⟩ <;> rfl
  have hread : StringLiteral.read (')' :: rest) = .none := by
    rw [StringLiteral.read, hletters]
  have hnumber : Number.length (')' :: rest) = 0 := rfl
  have hliteral : frontOfLiteral ')' rest = frontOfWord ')' rest := by
    simp only [frontOfLiteral, hnumber, hread]
  exact hliteral

theorem scan_closers (depth : Nat) :
    ∃ pieces, scan depth (List.replicate depth ')' ++ ['\n']) = ⟨pieces, 0, .nothing⟩ := by
  induction depth with
  | zero => exact ⟨_, rfl⟩
  | succ depth ih =>
    obtain ⟨pieces, hscan⟩ := ih
    refine ⟨.lexeme .operator [')'] :: pieces, ?_⟩
    rw [List.replicate_succ, List.cons_append, scan, List.length_cons, scanUpTo, front_closer]
    change (scan depth _).cons _ = _
    rw [hscan]
    rfl

theorem splitAtCloser_closer (d : Delimiter) (rest : Text) :
    splitAtCloser d (d.text ++ rest) = some (d.text, rest) := by
  obtain ⟨quote, triple⟩ := d
  cases quote <;> cases triple <;> rfl

/-- Behind its closer a run of lines leaves nothing open but blocks. -/
theorem cutLine_closer (s : State) :
    ∃ pieces, cutLine s (closer s) = .ok (pieces, { levels := s.levels }) := by
  obtain ⟨levels, depth, carry⟩ := s
  obtain ⟨pieces, hscan⟩ := scan_closers depth
  cases carry with
  | string d text =>
    refine ⟨.lexeme .string (text ++ d.text) :: pieces, ?_⟩
    simp only [cutLine, closer, cutInString, splitAtCloser_closer, scanRest, hscan]
    rfl
  | continuation =>
    refine ⟨pieces, ?_⟩
    simp only [cutLine, closer, List.nil_append, scanRest, hscan]
    rfl
  | nothing =>
    cases depth with
    | zero => exact ⟨_, rfl⟩
    | succ depth =>
      refine ⟨pieces, ?_⟩
      simp only [cutLine, closer, List.nil_append, scanRest, hscan]
      rfl

theorem lines_closer (s : State) : Text.lines (closer s) = [closer s] := by
  have hfeed : ∀ d : Delimiter, '\n' ∉ d.text := by
    rintro ⟨_ | _, _ | _⟩ <;> decide
  have hbrackets : '\n' ∉ List.replicate s.depth ')' := by simp
  rw [closer, ← List.append_assoc]
  apply Text.lines_of_feed
  refine List.not_mem_append ?_ hbrackets
  split
  · exact hfeed _
  · simp

end Segmentation

open Segmentation

theorem tokenize_of_cut {source : Text} {pieces : List Piece} {s : State}
    (h : cutLines {} (Text.lines source) = .ok (pieces, s)) :
    tokenize source = finish (Text.lines source) pieces s := by
  simp only [tokenize, h]

/-- At the end of a source all indentation has been found consistent. -/
theorem cause_of_finish {lines : List Text} {pieces : List Piece} {s : State} {e : LexicalError}
    (h : finish lines pieces s = .error e) : e.cause ≠ .inconsistentDedent := by
  intro hcause
  simp only [finish] at h
  split at h
  · cases h
    cases hcause
  · cases h
    cases hcause
  · split at h
    · cases h
    · cases h
      cases hcause

/-- The cause of an error is an inconsistent dedent exactly if some line cannot be cut. -/
theorem tokenize_misfit_iff {source : Text} {p : Position} :
    (∃ e, tokenize source = .error e ∧ e.cause = .inconsistentDedent ∧ e.position = p) ↔
      cutLines {} (Text.lines source) = .error p := by
  cases hcut : cutLines {} (Text.lines source) with
  | error q =>
    simp only [tokenize, hcut, Except.error.injEq, exists_eq_left', true_and]
  | ok r =>
    simp only [tokenize_of_cut hcut, reduceCtorEq, iff_false]
    rintro ⟨e, he, hcause, -⟩
    exact cause_of_finish he hcause

/-- A source whose lines can be cut has a completion. -/
theorem exists_completion {source : Text} {pieces : List Piece} {s : State}
    (h : cutLines {} (Text.lines source) = .ok (pieces, s)) :
    ∃ more tokens, tokenize (source ++ more) = .ok tokens := by
  obtain ⟨⟨front, last⟩, hfeed⟩ := exists_cutLines_feed h
  obtain ⟨back, hcloser⟩ := cutLine_closer last
  have hlines : Text.lines (source ++ '\n' :: closer last) =
      Text.lines (source ++ ['\n']) ++ [closer last] := by
    rw [← List.singleton_append, ← List.append_assoc, Text.lines_append (Or.inr (by simp)),
      lines_closer]
  have hcut := cutLines_append hfeed [closer last]
  simp only [← hlines, cutLines, hcloser] at hcut
  exact ⟨'\n' :: closer last, _, tokenize_of_cut hcut⟩

/-- Hopeless and incomplete sources. An inconsistent dedent stays at its place whatever is written
behind it; any other source, accepted or cut short, is the beginning of an accepted one. -/
theorem tokenize_continued (source : Text) :
    (∀ e, tokenize source = .error e → e.cause = .inconsistentDedent →
      ∀ more, ∃ e', tokenize (source ++ more) = .error e' ∧ e'.cause = .inconsistentDedent ∧
        e'.position = e.position) ∧
    ((∃ tokens, tokenize source = .ok tokens) ∨
        (∃ e, tokenize source = .error e ∧
          (e.cause = .unterminatedString ∨ e.cause = .unterminatedStatement)) →
      ∃ more tokens, tokenize (source ++ more) = .ok tokens) := by
  constructor
  · intro e herror hcause more
    have hcut := tokenize_misfit_iff.1 ⟨e, herror, hcause, rfl⟩
    exact tokenize_misfit_iff.2 (cutLines_lines_append_of_error hcut more)
  · intro houtcome
    cases hcut : cutLines {} (Text.lines source) with
    | ok r => exact exists_completion hcut
    | error p =>
      exfalso
      obtain ⟨e, herror, hcause, -⟩ := tokenize_misfit_iff.2 hcut
      rcases houtcome with ⟨tokens, htokens⟩ | ⟨e', herror', hcause'⟩
      · rw [herror] at htokens
        cases htokens
      · rw [herror, Except.error.injEq] at herror'
        rw [← herror', hcause] at hcause'
        simp at hcause'

/-- A dedent that fits no block, and an open string inside brackets. -/
theorem tokenize_continued_of_dedent_and_string :
    let hopeless : Text := [' ', ' ', 'a', '\n', ' ', 'b']
    let unfinished : Text := ['(', '"', '"', '"', '\n', '#', '\\']
    let misfit : LexicalError := ⟨.inconsistentDedent, ⟨2, 1⟩, some [' ', 'b']⟩
    let opened : LexicalError := ⟨.unterminatedString, ⟨1, 1⟩, some ['(', '"', '"', '"', '\n']⟩
    (tokenize hopeless = .error misfit ∧
      ∀ more, ∃ e, tokenize (hopeless ++ more) = .error e ∧ e.cause = .inconsistentDedent ∧
        e.position = ⟨2, 1⟩) ∧
    (tokenize unfinished = .error opened ∧
      ∃ more tokens, tokenize (unfinished ++ more) = .ok tokens) := by
  intro hopeless unfinished misfit opened
  have hmisfit : tokenize hopeless = .error misfit := by rfl
  have hopened : tokenize unfinished = .error opened := by rfl
  refine ⟨⟨hmisfit, ?_⟩, hopened, ?_⟩
  · exact (tokenize_continued hopeless).1 misfit hmisfit rfl
  · exact (tokenize_continued unfinished).2 (Or.inr ⟨opened, hopened, Or.inl rfl⟩)

end SourceTokens
