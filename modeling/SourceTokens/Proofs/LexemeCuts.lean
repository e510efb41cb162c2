import SourceTokens.Proofs.DroppedText
import SourceTokens.Proofs.OpenStrings

/-!
Where on its line a lexeme is cut. A lexeme ends the string that is open in front of the line, it
belongs to the start of a line that nothing ties to the lines above, or it is taken at the front of
what the pieces before it leave of the line. Its place is then that of its first character on the
line.
-/

namespace SourceTokens

namespace StringLiteral

/-- A literal begins with its quote or with one of four letters. -/
theorem Spelled.exists_head {d : Delimiter} {behind : Text → Prop} {text : Text}
    (h : Spelled d behind text) :
    ∃ c rest, text = c :: rest ∧ (c = d.quote.char ∨ c.toLower ∈ ['b', 'r', 'u', 'f']) := by
  obtain ⟨letters, body, hletters, rfl, -⟩ := h
  cases letters with
  | nil =>
    obtain ⟨quote, triple⟩ := d
    cases triple <;> exact ⟨quote.char, _, rfl, .inl rfl⟩
  | cons c more =>
    have hhead : ∀ entry ∈ letterTable, entry.headD 'b' ∈ ['b', 'r', 'u', 'f'] := by decide
    exact ⟨c, _, rfl, .inr (hhead _ (List.contains_iff_mem.1 hletters))⟩

end StringLiteral

namespace LineScan

variable {depth : Nat} {c : Char} {text rest after value : Text} {kind : TokenKind}

/-- A piece that is taken and what is left behind it are the text. -/
theorem Taken.cover {piece : Piece} (h : Taken depth c rest piece after) :
    piece.text ++ after = c :: rest := by
  have hcovers := front_covers depth c rest
  rw [front_of_taken h] at hcovers
  exact hcovers.1

/-- Every lexeme of a scan is taken at the front of what the pieces before it leave of the text. -/
theorem exists_taken_of_scan {head tail : List Piece}
    (h : (scan depth text).pieces = head ++ .lexeme kind value :: tail) :
    ∃ depth' c rest after, text = Piece.cover head ++ c :: rest ∧
      Taken depth' c rest (.lexeme kind value) after := by
  induction depth, text using scan_induction generalizing head with
  | nil => simp at h
  | piece depth c rest piece after htaken hcover ih =>
    change piece :: (scan _ after).pieces = _ at h
    cases head with
    | nil =>
      obtain ⟨rfl, -⟩ := List.cons.inj h
      exact ⟨depth, c, rest, after, rfl, htaken⟩
    | cons first head =>
      obtain ⟨rfl, hpieces⟩ := List.cons.inj h
      obtain ⟨depth', c', rest', after', rfl, htaken'⟩ := ih hpieces
      refine ⟨depth', c', rest', after', ?_, htaken'⟩
      rw [← hcover, Piece.cover_cons, List.append_assoc]
  | continuation => rcases head with _ | ⟨first, head⟩ <;> simp at h
  | unclosed => simp at h

end LineScan

namespace Segmentation

open Indentation LineScan StringLiteral

inductive LexemeCut (s : State) (line : Text) (head : List Piece) : TokenKind → Text → Prop
  /-- The open string is closed. -/
  | closes (d : Delimiter) (text body : Text) (hcarry : s.carry = .string d text)
      (hhead : head = []) : LexemeCut s line head .string (text ++ body)
  /-- The open string is given up with the line. -/
  | givesUp (d : Delimiter) (text : Text) (hcarry : s.carry = .string d text) (hhead : head = []) :
      LexemeCut s line head .unrecognized (text ++ line)
  /-- A comment alone on a line that could start a statement. -/
  | comment (blanks rest : Text) (hcarry : s.carry = .nothing) (hdepth : s.depth = 0)
      (hblanks : blanks.all Text.isBlank) (hhead : head = [.gap blanks])
      (hline : line = blanks ++ '#' :: rest) :
      LexemeCut s line head .comment (Text.dropBreaks ('#' :: rest))
  /-- The end of a line that could start a statement and holds no code. There is nothing of it if
  a comment ends the source. -/
  | lineBreak (value : Text) (hvalue : ∀ c ∈ value.head?, Text.isBreak c) :
      LexemeCut s line head .lineBreak value
  | indent (blanks : Text) (c : Char) (rest : Text) (hhead : head = []) (hcarry : s.carry = .nothing)
      (hblanks : blanks.all Text.isBlank) (hline : line = blanks ++ c :: rest) (hc : BeginsCode c)
      (hwidth : 0 < width blanks) : LexemeCut s line head .indent blanks
  | dedent : LexemeCut s line head .dedent []
  /-- The lexeme is taken behind the start of the line, which has code if it may start a
  statement. -/
  | taken (kind : TokenKind) (value lead : Text) (c : Char) (rest after : Text) (depth : Nat)
      (hhead : Piece.cover head = s.carry.text ++ lead) (hline : line = lead ++ c :: rest)
      (hcode : s.carry = .nothing → s.depth = 0 →
        ∃ before next behind, LineStart s.levels line (.code before next behind))
      (htaken : Taken depth c rest (.lexeme kind value) after) : LexemeCut s line head kind value

variable {s next : State} {line value : Text} {pieces head tail : List Piece} {kind : TokenKind}

theorem lexemeCut_of_noCode (hcarry : s.carry = .nothing) (hdepth : s.depth = 0)
    (h : LineStart s.levels line (.noCode (head ++ .lexeme kind value :: tail))) :
    LexemeCut s line head kind value := by
  generalize hpieces : head ++ Piece.lexeme kind value :: tail = pieces at h
  cases h with
  | blank => rcases head with _ | ⟨first, head⟩ <;> simp at hpieces
  | comment blanks rest hblanks hline =>
    rcases head with _ | ⟨first, _ | ⟨second, _ | ⟨third, head⟩⟩⟩ <;>
      simp only [List.nil_append, List.cons_append, List.cons.injEq, Piece.lexeme.injEq,
        reduceCtorEq, false_and, and_false, List.append_eq_nil_iff] at hpieces
    · obtain ⟨rfl, ⟨rfl, rfl⟩, -⟩ := hpieces
      exact .comment blanks rest hcarry hdepth hblanks rfl hline
    · obtain ⟨rfl, rfl, ⟨rfl, rfl⟩, -⟩ := hpieces
      have hbreaks := List.all_eq_true.1 (Text.all_isBreak_drop ('#' :: rest))
      exact .lineBreak _ fun c hc => hbreaks c (List.mem_of_mem_head? hc)
  | lineBreak blanks c rest hblanks hline hc =>
    rcases head with _ | ⟨first, _ | ⟨second, head⟩⟩ <;>
      simp only [List.nil_append, List.cons_append, List.cons.injEq, Piece.lexeme.injEq,
        reduceCtorEq, false_and, and_false, List.append_eq_nil_iff] at hpieces
    obtain ⟨rfl, ⟨rfl, rfl⟩, -⟩ := hpieces
    refine .lineBreak _ fun d hd => ?_
    rw [List.head?_cons, Option.mem_some_iff] at hd
    rwa [← hd]

theorem lexemeCut_of_code {levels : List Nat} {rest : Text} (hcarry : s.carry = .nothing)
    (h : LineStart s.levels line (.code (head ++ .lexeme kind value :: tail) levels rest)) :
    LexemeCut s line head kind value := by
  generalize hpieces : head ++ Piece.lexeme kind value :: tail = pieces at h
  cases h with
  | opens blanks c rest hblanks hline hc hwidth =>
    rcases head with _ | ⟨first, head⟩
    · obtain ⟨rfl, rfl⟩ := Piece.lexeme.inj (List.cons.inj hpieces).1
      exact .indent value c rest rfl hcarry hblanks hline hc (Nat.zero_lt_of_lt hwidth)
    · simp at hpieces
  | closes blanks c rest hblanks hline hc hwidth hopen =>
    have hmem := List.mem_append_right head (List.mem_cons_self (a := .lexeme kind value) (l := tail))
    rw [hpieces] at hmem
    simp only [List.mem_cons, reduceCtorEq, List.mem_map, Piece.lexeme.injEq, false_or] at hmem
    obtain ⟨-, -, rfl, rfl⟩ := hmem
    exact .dedent
  | stays => rcases head with _ | ⟨first, head⟩ <;> simp at hpieces

theorem lexemeCut_of_lineCut (h : LineCut s line pieces next)
    (hpieces : pieces = head ++ .lexeme kind value :: tail) :
    LexemeCut s line head kind value := by
  cases h with
  | closes d text body rest hcarry hsplit =>
    cases head with
    | nil =>
      obtain ⟨rfl, rfl⟩ := Piece.lexeme.inj (List.cons.inj hpieces).1
      exact .closes d text body hcarry rfl
    | cons first head =>
      obtain ⟨rfl, hscan⟩ := List.cons.inj hpieces
      obtain ⟨depth, c, rest', after, rfl, htaken⟩ := exists_taken_of_scan hscan
      refine .taken kind value (body ++ Piece.cover head) c rest' after depth ?_ ?_ ?_ htaken
      · rw [Piece.cover_cons, hcarry]
        simp only [Piece.text, Carry.text, List.append_assoc]
      · rw [← splitAtCloser_append hsplit, List.append_assoc]
      · intro hnothing
        rw [hcarry] at hnothing
        cases hnothing
  | givesUp d text hcarry =>
    rcases head with _ | ⟨first, head⟩
    · obtain ⟨rfl, rfl⟩ := Piece.lexeme.inj (List.cons.inj hpieces).1
      exact .givesUp d text hcarry rfl
    · simp at hpieces
  | staysOpen => simp at hpieces
  | noCode pieces hcarry hdepth hstart => exact lexemeCut_of_noCode hcarry hdepth (hpieces ▸ hstart)
  | code before levels rest hcarry hdepth hstart =>
    have hscanned : ∀ behind, head = before ++ behind →
        (scan s.depth rest).pieces = behind ++ .lexeme kind value :: tail →
          LexemeCut s line head kind value := by
      rintro behind rfl hscan
      obtain ⟨depth, c, rest', after, rfl, htaken⟩ := exists_taken_of_scan hscan
      refine .taken kind value (Piece.cover (before ++ behind)) c rest' after depth ?_ ?_ ?_ htaken
      · rw [hcarry]
        rfl
      · rw [← cover_of_code hstart, Piece.cover_append, List.append_assoc]
      · exact fun _ _ => ⟨before, levels, _, hstart⟩
    rcases List.append_eq_append_iff.1 hpieces with ⟨middle, hhead, hscan⟩ | ⟨middle, rfl, hmiddle⟩
    · exact hscanned middle hhead hscan
    · cases middle with
      | nil => exact hscanned [] (by simp) hmiddle.symm
      | cons first middle =>
        obtain ⟨rfl, -⟩ := List.cons.inj hmiddle
        exact lexemeCut_of_code hcarry hstart
  | within hcarry =>
    obtain ⟨depth, c, rest, after, rfl, htaken⟩ := exists_taken_of_scan hpieces
    refine .taken kind value (Piece.cover head) c rest after depth ?_ rfl ?_ htaken
    · rcases hcarry with hcarry | ⟨hcarry, -⟩ <;> rw [hcarry] <;> rfl
    · intro hnothing hdepth
      rcases hcarry with hcarry | ⟨-, hopen⟩
      · rw [hcarry] at hnothing
        cases hnothing
      · exact absurd hdepth hopen

/-- Names, numbers and operators are taken where they stand. -/
theorem LexemeCut.exists_taken (h : LexemeCut s line head kind value)
    (hkind : kind ∈ [.name, .number, .operator]) :
    ∃ lead c rest after depth, Piece.cover head = s.carry.text ++ lead ∧ line = lead ++ c :: rest ∧
      Taken depth c rest (.lexeme kind value) after := by
  cases h with
  | taken kind value lead c rest after depth hhead hline hcode htaken =>
    exact ⟨lead, c, rest, after, depth, hhead, hline, htaken⟩
  | _ => simp at hkind

/-- An indent is what stands in front of the code of its line. -/
theorem LexemeCut.exists_code (h : LexemeCut s line head .indent value) :
    head = [] ∧ s.carry = .nothing ∧ value.all Text.isBlank ∧ 0 < width value ∧
      ∃ c rest, line = value ++ c :: rest ∧ BeginsCode c := by
  cases h with
  | indent blanks c rest hhead hcarry hblanks hline hc hwidth =>
    exact ⟨hhead, hcarry, hblanks, hwidth, c, rest, hline, hc⟩
  | taken kind value lead c rest after depth hhead hline hcode htaken =>
    cases unmarked_of_taken htaken

/-- A character that begins lexemes of one kind only, wherever on a line it stands. -/
structure IsSign (c : Char) (kind : TokenKind) : Prop where
  notBlank : Text.isBlank c = false
  notBreak : Text.isBreak c = false
  notQuote : ∀ q : Quote, c ≠ q.char
  notLetter : c.toLower ∉ ['b', 'r', 'u', 'f']
  ofComment : c = '#' → kind = .comment
  ofTaken : ∀ depth rest other text after,
    Taken depth c rest (.lexeme other text) after → other = kind

/-- No open string begins with a sign. -/
theorem IsSign.ne_of_opened {c : Char} {d : Delimiter} {text : Text} (hc : IsSign c kind)
    (hs : StringsOpened s) (hcarry : s.carry = .string d text) (more rest : Text) :
    text ++ more ≠ c :: rest := by
  obtain ⟨e, rest', rfl, hopens⟩ := (hs d text hcarry).exists_head
  intro heq
  obtain ⟨rfl, -⟩ := List.cons.inj heq
  exact hopens.elim (hc.notQuote d.quote) hc.notLetter

theorem LexemeCut.kind_of_sign {c : Char} {rest : Text} (hs : StringsOpened s)
    (h : LexemeCut s line head kind value) {sign : TokenKind} (hc : IsSign c sign)
    (hvalue : value = c :: rest) : kind = sign := by
  cases h with
  | closes d text body hcarry => exact absurd hvalue (hc.ne_of_opened hs hcarry body rest)
  | givesUp d text hcarry => exact absurd hvalue (hc.ne_of_opened hs hcarry line rest)
  | comment blanks rest' hcarry hdepth hblanks hhead hline =>
    have happend := Text.dropBreaks_append_drop ('#' :: rest')
    rw [hvalue] at happend
    exact (hc.ofComment (List.cons.inj happend).1).symm
  | lineBreak value hbreak =>
    have hsign := hbreak c (by rw [hvalue]; rfl)
    rw [hc.notBreak] at hsign
    cases hsign
  | indent blanks d rest' hhead hcarry hblanks =>
    rw [hvalue, List.all_cons, hc.notBlank] at hblanks
    cases hblanks
  | dedent => cases hvalue
  | taken kind value lead e rest' after depth hhead hline hcode htaken =>
    have hcover := htaken.cover
    rw [Piece.text, hvalue] at hcover
    obtain ⟨rfl, -⟩ := List.cons.inj hcover
    exact hc.ofTaken depth rest' kind value after htaken

end Segmentation

namespace CutAt

variable {source line : Text} {pieces front back : List Piece} {levels : List Nat}
  {above below : List Text} {s : Segmentation.State}

theorem oneLine (h : CutAt source pieces levels above line below front s back) :
    Text.OneLine line := by
  have hmem : line ∈ Text.lines source := by simp [h.lines_eq]
  exact Text.oneLine_of_mem_lines hmem

theorem lead_not_feed {lead rest : Text} {c : Char}
    (h : CutAt source pieces levels above (lead ++ c :: rest) below front s back) : '\n' ∉ lead :=
  h.oneLine.left (List.cons_ne_nil c rest)

/-- The place of a piece on its line. -/
theorem past_lead (h : CutAt source pieces levels above line below front s back)
    {head : List Piece} {lead : Text} (hhead : Piece.cover head = s.carry.text ++ lead)
    (hlead : '\n' ∉ lead) :
    Position.origin.past (Piece.cover (front ++ head)) = ⟨above.length + 1, lead.length⟩ := by
  rw [Piece.cover_append, hhead, Position.past_append, Position.past_append, h.past_carry,
    Position.past_of_no_feed _ hlead, Nat.zero_add]

theorem physicalLine (h : CutAt source pieces levels above line below front s back) :
    Text.physicalLine? source (above.length + 1) = some line := by
  simp [Text.physicalLine?, h.lines_eq]

end CutAt

namespace Accepted

open Segmentation

variable {source : Text} {tokens : List Token} {pieces before after : List Piece}
  {levels : List Nat} {kind other : TokenKind} {value : Text}

/-- The line that a lexeme is cut from, seen with the lines around it. -/
theorem exists_lexemeCut (h : Accepted source tokens pieces levels)
    (hpieces : pieces = before ++ .lexeme kind value :: after) :
    ∃ above line below front s back head, CutAt source pieces levels above line below front s back ∧
      before = front ++ head ∧ StringsOpened s ∧ LexemeCut s line head kind value := by
  obtain ⟨above, line, below, front, s, back, head, tail, next, hat, hline, hbefore⟩ :=
    h.exists_cutAt_of_piece hpieces
  have hopened := stringsOpened_of_cutLines stringsOpened_start hat.whole hat.cut_above
  exact ⟨above, line, below, front, s, back, head, hat, hbefore, hopened,
    lexemeCut_of_lineCut hline rfl⟩

/-- What begins with a sign is of the kind of the sign. -/
theorem kind_of_sign (h : Accepted source tokens pieces levels) {c : Char} (hc : IsSign c kind)
    (hmem : .lexeme other (c :: value) ∈ pieces) : other = kind := by
  obtain ⟨before, after, hpieces⟩ := List.append_of_mem hmem
  obtain ⟨above, line, below, front, s, back, head, hat, -, hopened, hcut⟩ :=
    h.exists_lexemeCut hpieces
  exact hcut.kind_of_sign hopened hc rfl

end Accepted

end SourceTokens
