import SourceTokens.Proofs.DroppedText
import SourceTokens.Proofs.Requests
import SourceTokens.Proofs.Terminators

/-!
What a rejection points at. A string that is left open begins with a letter or a quote, and code
that fits no block begins with a character of its own, so the place of such an error is that of a
character before the terminator of its line. That is where the caret of the rendered error stands.
A reply tells the place of an error exactly if the source is at fault.
-/

namespace SourceTokens

namespace StringLiteral

theorem not_break_of_letters {c : Char} {rest : Text}
    (h : lettersBeforeQuote (c :: rest) ≠ none) : Text.isBreak c = false := by
  obtain ⟨⟨letters, q, after⟩, hletters⟩ := Option.ne_none_iff_exists'.1 h
  rw [Bool.eq_false_iff]
  intro hbreak
  simp only [Text.isBreak, Bool.or_eq_true, beq_iff_eq] at hbreak
  rcases begins_of_lettersBeforeQuote hletters with hquote | hletter
  · cases q <;> rcases hbreak with rfl | rfl <;> cases hquote
  · rcases hbreak with rfl | rfl <;> revert hletter <;> decide

end StringLiteral

theorem LineScan.not_break_of_unclosed {depth : Nat} {c : Char} {rest : Text}
    {d : StringLiteral.Delimiter} (h : front depth c rest = .unclosed d) :
    Text.isBreak c = false := by
  have hread := (front_eq_unclosed_iff.1 h).2.2
  have hletters : StringLiteral.lettersBeforeQuote (c :: rest) ≠ none := by
    intro hnone
    rw [StringLiteral.read, hnone] at hread
    cases hread
  exact StringLiteral.not_break_of_letters hletters

namespace Segmentation

open Indentation LineScan StringLiteral

def OpensBeforeBreak (s : State) : Prop :=
  ∀ d text, s.carry = .string d text → ∃ c rest, text = c :: rest ∧ Text.isBreak c = false

theorem opensBeforeBreak_scan (levels : List Nat) (depth : Nat) (text : Text) :
    OpensBeforeBreak (.ofScan levels (scan depth text)) := by
  intro d opened hcarry
  change (scan depth text).carry = _ at hcarry
  induction depth, text using scan_induction with
  | nil => cases hcarry
  | piece depth c rest piece after htaken hcover ih => exact ih hcarry
  | continuation => cases hcarry
  | unclosed depth c rest d' hfront =>
    cases hcarry
    exact ⟨c, rest, rfl, not_break_of_unclosed hfront⟩

theorem lineCut_opensBeforeBreak {s next : State} {line : Text} {pieces : List Piece}
    (h : LineCut s line pieces next) (hs : OpensBeforeBreak s) : OpensBeforeBreak next := by
  cases h with
  | closes => exact opensBeforeBreak_scan _ _ _
  | givesUp => exact fun d text hcarry => by cases hcarry
  | staysOpen d text hcarry =>
    obtain ⟨c, rest, rfl, hc⟩ := hs d text hcarry
    intro d' text' hcarry'
    cases hcarry'
    exact ⟨c, rest ++ line, rfl, hc⟩
  | noCode => exact hs
  | code => exact opensBeforeBreak_scan _ _ _
  | within => exact opensBeforeBreak_scan _ _ _

theorem cutLines_opensBeforeBreak {s : State} {lines : List Text} {pieces : List Piece}
    (h : cutLines {} lines = .ok (pieces, s)) : OpensBeforeBreak s :=
  invariant_of_cutLines (fun _ _ _ _ => lineCut_opensBeforeBreak) h
    fun d text hcarry => by cases hcarry

/-- Code that fits no block begins with a character of its line that is no break. -/
theorem exists_char_of_misfit {s : State} {lines : List Text} {p : Position}
    (h : cutLines s lines = .error p) : 1 ≤ p.line ∧ ∃ text c,
      lines[p.line - 1]? = some text ∧ text[p.col]? = some c ∧ Text.isBreak c = false := by
  induction lines generalizing s p with
  | nil => cases h
  | cons line later ih =>
    unfold cutLines at h
    split at h
    · rename_i column hline
      cases h
      obtain ⟨-, -, hstart⟩ := cutLine_eq_error_iff.1 hline
      cases hstart with
      | misfit blanks c rest hblanks hsplit hc hwidth hclosed =>
        exact ⟨Nat.le_refl 1, line, c, rfl, by simp [hsplit], hc.2.2⟩
    · split at h
      · rename_i q hlater
        cases h
        obtain ⟨hpos, other, c, hother, hc, hbreak⟩ := ih hlater
        refine ⟨Nat.succ_le_succ (Nat.zero_le _), other, c, ?_, hc, hbreak⟩
        have hnumber : (q.down 1).line - 1 = (q.line - 1) + 1 := by
          change q.line + 1 - 1 = _
          omega
        rw [hnumber]
        exact hother
      · cases h

end Segmentation

namespace LexicalError

/-- An error with the physical line of its place and the character there, which stands before the
terminator of the line. -/
structure PointsAt (e : LexicalError) (source text : Text) (c : Char) : Prop where
  line_eq : e.line = some text
  physical : Text.physicalLine? source e.position.line = some text
  char : text[e.position.col]? = some c
  notBreak : c ≠ '\r' ∧ c ≠ '\n'

/-- An error as it is rendered: behind the heading a line and below it the caret, both indented
alike. The padding before the caret reaches up to the character above it, and it has a tab where the
line has one and spaces elsewhere. -/
structure ShowsCaret (e : LexicalError) (name line : Text) (c : Char) (shown padding : Text) :
    Prop where
  render_eq : e.render name = ({ e with line := none } : LexicalError).render name ++
    ("\n  | ".toList ++ shown ++ ("\n  | ".toList ++ padding ++ ['^']))
  shown_eq : ∃ terminator, line = shown ++ terminator ∧ terminator.all Text.isBreak
  above : shown[e.position.col]? = some c
  length_eq : padding.length = e.position.col
  tabs : ∀ i, i < e.position.col →
    padding[i]? = some (if shown[i]? = some '\t' then '\t' else ' ')

/-- A character before the terminator of a line is one of the line as it is shown. -/
theorem getElem?_dropBreaks {text : Text} {col : Nat} {c : Char} (hc : text[col]? = some c)
    (hbreak : Text.isBreak c = false) : (Text.dropBreaks text)[col]? = some c := by
  have htext := Text.dropBreaks_append_drop text
  rcases Nat.lt_or_ge col (Text.dropBreaks text).length with hlt | hge
  · rwa [← htext, List.getElem?_append_left hlt] at hc
  · exfalso
    rw [← htext, List.getElem?_append_right hge] at hc
    have hall := List.all_eq_true.1 (Text.all_isBreak_drop text) c (List.mem_of_getElem? hc)
    rw [hbreak] at hall
    cases hall

theorem render_of_line {e : LexicalError} {line : Text} (name : Text) (hline : e.line = some line) :
    e.render name = ({ e with line := none } : LexicalError).render name ++
      excerpt line e.position.col := by
  obtain ⟨cause, position, shownLine⟩ := e
  cases hline
  exact congrArg (· ++ excerpt line position.col) (List.append_nil _).symm

theorem excerpt_eq (line : Text) (col : Nat) :
    excerpt line col = "\n  | ".toList ++ Text.dropBreaks line ++
      ("\n  | ".toList ++ padding ((Text.dropBreaks line).take col) ++ ['^']) := by
  unfold excerpt
  -- the literal is not to be unfolded where the nesting of the two sides is compared
  generalize "\n  | ".toList = bar
  simp only [List.append_assoc]

/-- The caret stands below the character at the place of the error. -/
theorem exists_caret {e : LexicalError} {text : Text} {c : Char} (name : Text)
    (hline : e.line = some text) (hc : text[e.position.col]? = some c)
    (hbreak : Text.isBreak c = false) :
    ∃ shown padding, ShowsCaret e name text c shown padding := by
  have habove := getElem?_dropBreaks hc hbreak
  obtain ⟨hcol, -⟩ := List.getElem?_eq_some_iff.1 habove
  refine ⟨Text.dropBreaks text, padding ((Text.dropBreaks text).take e.position.col), ?_⟩
  constructor
  case render_eq => rw [render_of_line name hline, excerpt_eq]
  case shown_eq => exact ⟨_, (Text.dropBreaks_append_drop text).symm, Text.all_isBreak_drop text⟩
  case above => exact habove
  case length_eq =>
    rw [padding, List.length_map, List.length_take, Nat.min_eq_left (Nat.le_of_lt hcol)]
  case tabs =>
    intro i hi
    have hshown : i < (Text.dropBreaks text).length := Nat.lt_trans hi hcol
    rw [padding, List.getElem?_map, List.getElem?_take_of_lt hi, List.getElem?_eq_getElem hshown]
    simp

end LexicalError

/-- The lines of a text count from one. -/
theorem Text.getElem?_of_physicalLine? {source line : Text} {number : Nat}
    (h : Text.physicalLine? source number = some line) :
    (Text.lines source)[number - 1]? = some line := by
  cases number with
  | zero => cases h
  | succ n => exact h

theorem Text.physicalLine?_of_getElem? {source line : Text} {number : Nat} (hpos : 1 ≤ number)
    (h : (Text.lines source)[number - 1]? = some line) :
    Text.physicalLine? source number = some line := by
  cases number with
  | zero => cases hpos
  | succ n => exact h

open Segmentation LexicalError

/-- A source that ends inside a statement is rejected below its last line. -/
theorem below_of_unterminatedStatement {source : Text} {e : LexicalError}
    (h : tokenize source = .error e) (hcause : e.cause = .unterminatedStatement) :
    e.line = none ∧ e.position = ⟨(Text.lines source).length + 1, 0⟩ := by
  unfold tokenize at h
  simp only at h
  split at h
  · cases h
    cases hcause
  · unfold finish at h
    simp only at h
    split at h
    · cases h
      cases hcause
    · cases h
      exact ⟨rfl, rfl⟩
    · split at h
      · cases h
      · cases h
        exact ⟨rfl, rfl⟩

/-- Every other rejection points at a character of the source. -/
theorem exists_pointsAt {source : Text} {e : LexicalError} (h : tokenize source = .error e)
    (hcause : e.cause ≠ .unterminatedStatement) : ∃ line c, PointsAt e source line c := by
  have hnotBreak : ∀ c, Text.isBreak c = false → c ≠ '\r' ∧ c ≠ '\n' := by
    intro c hc
    simpa [Text.isBreak] using hc
  cases hcut : cutLines {} (Text.lines source) with
  | error p =>
    obtain ⟨hpos, line, c, hline, hc, hbreak⟩ := exists_char_of_misfit hcut
    simp only [tokenize, hcut] at h
    cases h
    exact ⟨line, c, hline, Text.physicalLine?_of_getElem? hpos hline, hc, hnotBreak c hbreak⟩
  | ok r =>
    obtain ⟨pieces, s⟩ := r
    rw [tokenize_of_cut hcut] at h
    have hopens := cutLines_opensBeforeBreak hcut
    have hcover := cutLines_cover hcut
    rw [Text.flatten_lines] at hcover
    unfold finish at h
    simp only at h
    split at h
    · rename_i d text hcarry
      obtain ⟨c, rest, rfl, hbreak⟩ := hopens d text hcarry
      cases h
      rw [hcarry] at hcover
      change Piece.cover pieces ++ c :: rest = source at hcover
      have hplaced := Text.mem_placed_append_cons (Piece.cover pieces) c rest
      rw [hcover] at hplaced
      obtain ⟨line, hline, hc⟩ := Text.physicalLine?_of_mem_placed hplaced
      refine ⟨line, c, ?_, hline, hc, hnotBreak c hbreak⟩
      rw [List.getElem?_toArray]
      exact Text.getElem?_of_physicalLine? hline
    · cases h
      exact absurd rfl hcause
    · split at h
      · cases h
      · cases h
        exact absurd rfl hcause

namespace Tokenizer

/-- A refusal in a reply is that of a request at fault, or that of an error in the source. -/
theorem refusal_cases {t : Tokenizer} {payload : List UInt8} {r : Refusal}
    (h : t.replyTo payload = .refusal r) :
    (∃ e, r = .ofRequestFault e) ∨ ∃ request body e, Request.decode payload = .ok request ∧
      request.bodyFor t.language = .ok body ∧ t.tokenize body = .error e ∧
      r = .ofLexicalError e := by
  obtain ⟨e, hfault⟩ | ⟨request, body, hdecode, hbody, hserve⟩ := t.replyTo_cases payload
  · rw [hfault] at h
    cases h
    exact .inl ⟨e, rfl⟩
  · rw [hserve] at h
    unfold serve at h
    split at h
    · rename_i e htokenize
      cases h
      exact .inr ⟨request, body, e, hdecode, hbody, htokenize, rfl⟩
    · obtain ⟨_, _, operation⟩ := request
      cases operation <;> cases h

end Tokenizer

/-- Every rejection points at a real place. A source that ends inside a statement is rejected below
its last line. Any other rejection has the physical line of its place, the place is that of a
character before the terminator of the line, and the error is shown with the caret below that
character. A refusal has a place exactly if it is for an error in the source, and the place is that
of the error in the text that the request asks for. -/
theorem tokenize_rejects :
    (∀ source e, tokenize source = .error e →
      (e.cause = .unterminatedStatement →
        e.line = none ∧ e.position = ⟨(Text.lines source).length + 1, 0⟩) ∧
      (e.cause ≠ .unterminatedStatement →
        ∃ line c, PointsAt e source line c ∧
          ∀ name, ∃ shown padding, ShowsCaret e name line c shown padding)) ∧
    ∀ (t : Tokenizer) (r : Refusal),
      ((∃ payload, t.replyTo payload = .refusal r) ∨ (∃ message, r = .ofInternal message) →
        (r.position.isSome ↔ r.kind = .source)) ∧
      ∀ payload, t.replyTo payload = .refusal r → r.kind = .source →
        ∃ request body e, Request.decode payload = .ok request ∧
          request.bodyFor t.language = .ok body ∧ t.tokenize body = .error e ∧
          r.position = some e.position := by
  refine ⟨fun source e h => ⟨below_of_unterminatedStatement h, fun hcause => ?_⟩,
    fun t r => ⟨?_, fun payload h hkind => ?_⟩⟩
  · obtain ⟨line, c, hpoints⟩ := exists_pointsAt h hcause
    have hbreak : Text.isBreak c = false := by simpa [Text.isBreak] using hpoints.notBreak
    exact ⟨line, c, hpoints, fun name => exists_caret name hpoints.line_eq hpoints.char hbreak⟩
  · rintro (⟨payload, h⟩ | ⟨message, rfl⟩)
    · obtain ⟨e, rfl⟩ | ⟨_, _, e, -, -, -, rfl⟩ := Tokenizer.refusal_cases h
      · simp [Refusal.ofRequestFault]
      · simp [Refusal.ofLexicalError]
    · simp [Refusal.ofInternal]
  · obtain ⟨e, rfl⟩ | ⟨request, body, e, hdecode, hbody, htokenize, rfl⟩ :=
      Tokenizer.refusal_cases h
    · cases hkind
    · exact ⟨request, body, e, hdecode, hbody, htokenize, rfl⟩

/-- A string opens behind a tab and two more characters in the second of three lines and is never
closed. A request asks for the tokens of another such string. -/
theorem tokenize_rejects_of_open_string :
    (∃ line c, PointsAt ⟨.unterminatedString, ⟨2, 3⟩, some "\té='''\r\n".toList⟩
        "if a:\n\té='''\r\n#".toList line c ∧
      ∀ name, ∃ shown padding,
        ShowsCaret ⟨.unterminatedString, ⟨2, 3⟩, some "\té='''\r\n".toList⟩ name line c shown
          padding) ∧
    ∃ request body e,
      Request.decode (Utf8.encode "[\"python\",\"é='''\"]".toList) = .ok request ∧
      request.bodyFor Tokenizer.python.language = .ok body ∧
      Tokenizer.python.tokenize body = .error e ∧ some ⟨1, 2⟩ = some e.position := by
  constructor
  · exact (tokenize_rejects.1 _ _ (by rfl)).2 (by decide)
  · exact (tokenize_rejects.2 Tokenizer.python
      ⟨.source, "EOF in multi-line string".toList, some ⟨1, 2⟩⟩).2 _ (by rfl) rfl

end SourceTokens
