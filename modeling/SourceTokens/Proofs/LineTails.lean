import SourceTokens.Proofs.Locality

/-!
Ends of lines that can be written in another way. A carriage return comes in front of a line feed,
spaces in front of a continuation go, or spaces at the end of the source. What is cut from the line
in front of its end stays the same.
-/

namespace SourceTokens

/-- Ends of a line that can be written in another way without a change to what stands before
them. -/
inductive Tail : Text → Text → Prop
  /-- A line feed gets a carriage return. -/
  | feed : Tail ['\n'] ['\r', '\n']
  /-- A continuation loses the spaces in front of it and its carriage return. -/
  | joined (spaces mark : Text) (hspaces : ∀ c ∈ spaces, c = ' ')
      (hmark : StringLiteral.isContinuation mark) : Tail (spaces ++ mark) ['\\', '\n']
  /-- The end of the source loses the spaces in front of it. -/
  | ended (spaces : Text) (hspaces : ∀ c ∈ spaces, c = ' ') (hne : spaces ≠ []) : Tail spaces []

namespace Tail

open StringLiteral

variable {w w' : Text}

theorem neutral_left (h : Tail w w') : Text.Neutral w := by
  have hspace : ∀ (spaces : Text) (rest : Text), (∀ c ∈ spaces, c = ' ') → Text.Neutral rest →
      Text.Neutral (spaces ++ rest) := by
    intro spaces rest hspaces hrest
    cases spaces with
    | nil => exact hrest
    | cons c spaces =>
      obtain rfl := hspaces c (List.mem_cons_self ..)
      intro d hd
      cases hd
      exact List.mem_cons_self ..
  cases h with
  | feed =>
    intro c hc
    cases hc
    decide
  | joined spaces mark hspaces hmark =>
    apply hspace spaces mark hspaces
    simp only [isContinuation, Bool.or_eq_true, beq_iff_eq] at hmark
    rcases hmark with rfl | rfl
    · intro c hc
      cases hc
      decide
    · intro c hc
      cases hc
      decide
  | ended _ hspaces =>
    have hneutral := hspace w [] hspaces (by intro c hc; cases hc)
    rwa [List.append_nil] at hneutral

theorem neutral_right (h : Tail w w') : Text.Neutral w' := by
  cases h with
  | feed => intro c hc; cases hc; decide
  | joined => intro c hc; cases hc; decide
  | ended => intro c hc; cases hc

theorem left_ne_nil (h : Tail w w') : w ≠ [] := by
  cases h with
  | feed => exact List.cons_ne_nil _ _
  | joined spaces mark hspaces hmark =>
    apply List.append_ne_nil_of_right_ne_nil
    rintro rfl
    cases hmark
  | ended _ hspaces hne => exact hne

/-- What begins the new end is no blank, and no line feed either. -/
theorem head_right (h : Tail w w') : w' = [] ∨ (∃ rest, w' = '\\' :: rest) ∨
    ∃ rest, w' = '\r' :: rest := by
  cases h with
  | feed => exact Or.inr (Or.inr ⟨_, rfl⟩)
  | joined => exact Or.inr (Or.inl ⟨_, rfl⟩)
  | ended => exact Or.inl rfl

theorem readBody_of_spaces (q : Quote) {spaces : Text} (h : ∀ c ∈ spaces, c = ' ') (rest : Text) :
    readBody q (spaces ++ rest) = (readBody q rest).cons spaces := by
  induction spaces with
  | nil => cases hbody : readBody q rest <;> simp [Body.cons, hbody]
  | cons c spaces ih =>
    obtain ⟨rfl, hspaces⟩ := List.forall_mem_cons.1 h
    have hquote : ' ' ≠ q.char := by cases q <;> decide
    rw [List.cons_append, readBody_cons (by decide) (by decide), if_neg hquote, ih hspaces]
    cases readBody q rest <;> rfl

/-- In single quotes the text in front of a continuation goes on with it. -/
theorem readBody_of_joined (q : Quote) {spaces mark : Text} (hspaces : ∀ c ∈ spaces, c = ' ')
    (hmark : isContinuation mark) : readBody q (spaces ++ mark) = .continued := by
  rw [readBody_of_spaces q hspaces]
  simp only [isContinuation, Bool.or_eq_true, beq_iff_eq] at hmark
  rcases hmark with rfl | rfl <;> rfl

theorem not_continuation (h : Tail w w') {c : Char} {text : Text} (hc : c ≠ '\n')
    (hfeed : '\n' ∉ text) : isContinuation ('\\' :: c :: (text ++ w')) = false := by
  rw [Bool.eq_false_iff, Ne, isContinuation_iff]
  rintro (hrest | hrest)
  · exact hc (List.cons.inj hrest).1
  · have hbehind := (List.cons.inj hrest).2
    cases text with
    | cons d text =>
      obtain ⟨rfl, -⟩ := List.cons.inj hbehind
      exact hfeed (List.mem_cons_self ..)
    | nil =>
      rcases h.head_right with rfl | ⟨rest, rfl⟩ | ⟨rest, rfl⟩ <;> cases hbehind

/-- A body in single quotes that its line breaks off is broken off with the new end too. -/
theorem readBody_of_broken (h : Tail w w') {q : Quote} {text : Text} (hfeed : '\n' ∉ text)
    (hbody : readBody q (text ++ w) = .broken) : readBody q (text ++ w') = .broken := by
  fun_induction readBody q text with
  | case1 =>
    cases h with
    | feed => cases q <;> rfl
    | joined spaces mark hspaces hmark =>
      rw [List.nil_append, readBody_of_joined q hspaces hmark] at hbody
      cases hbody
    | ended => rfl
  | case2 => exact absurd (List.mem_cons_self ..) hfeed
  | case3 rest hcontinuation =>
    rw [isContinuation_iff] at hcontinuation
    rcases hcontinuation with rfl | rfl <;> simp at hfeed
  | case4 hopen =>
    cases h with
    | feed => cases hbody
    | joined => cases q <;> rfl
    | ended => rfl
  | case5 c later hopen ih =>
    simp only [List.mem_cons, not_or] at hfeed
    obtain ⟨-, hc, hlater⟩ := hfeed
    rw [List.cons_append, List.cons_append, readBody] at hbody ⊢
    rw [h.not_continuation (Ne.symm hc) hlater, if_neg Bool.false_ne_true, Body.cons_eq_broken]
    split at hbody
    · cases hbody
    · exact ih hlater (Body.cons_eq_broken.1 hbody)
  | case6 rest hquoteFeed hquoteBackslash =>
    rw [List.cons_append, readBody_cons hquoteFeed hquoteBackslash, if_pos rfl] at hbody
    cases hbody
  | case7 c rest hother hbackslash hquote ih =>
    rw [List.cons_append, readBody_cons hother hbackslash, if_neg hquote,
      Body.cons_eq_broken] at hbody ⊢
    exact ih (fun hmem => hfeed (List.mem_cons_of_mem _ hmem)) hbody

/-- Where no literal starts in front of an end of a line, none starts in front of the new end. -/
theorem read_of_none (h : Tail w w') {text : Text} (hfeed : '\n' ∉ text)
    (hread : read (text ++ w) = .none) : read (text ++ w') = .none := by
  unfold StringLiteral.read at hread ⊢
  rw [lettersBeforeQuote_append_neutral text h.neutral_left] at hread
  rw [lettersBeforeQuote_append_neutral text h.neutral_right]
  cases hletters : lettersBeforeQuote text with
  | none => rfl
  | some r =>
    obtain ⟨letters, q, rest⟩ := r
    rw [hletters] at hread
    have hrest : '\n' ∉ rest := by
      intro hmem
      apply hfeed
      rw [← lettersBeforeQuote_append hletters]
      exact List.mem_append_right _ (List.mem_cons_of_mem _ hmem)
    simp only [Option.map_some] at hread ⊢
    rw [isPrefixOf_quotes rest h.neutral_left] at hread
    rw [isPrefixOf_quotes rest h.neutral_right]
    split at hread
    · split at hread <;> cases hread
    · rename_i htriple
      rw [if_neg htriple]
      split at hread
      · cases hread
      · cases hread
      · rename_i hbody
        rw [h.readBody_of_broken hrest hbody]

/-- A literal that is closed in front of an end of a line is closed in front of the new end. -/
theorem read_of_closed (h : Tail w w') {literal after : Text}
    (hread : read (literal ++ (after ++ w)) = .closed literal (after ++ w)) :
    read (literal ++ (after ++ w')) = .closed literal (after ++ w') := by
  rw [← List.append_assoc] at hread ⊢
  unfold StringLiteral.read at hread ⊢
  rw [lettersBeforeQuote_append_neutral _ h.neutral_left] at hread
  rw [lettersBeforeQuote_append_neutral _ h.neutral_right]
  cases hletters : lettersBeforeQuote (literal ++ after) with
  | none =>
    rw [hletters] at hread
    cases hread
  | some r =>
    obtain ⟨letters, q, rest⟩ := r
    rw [hletters] at hread
    simp only [Option.map_some] at hread ⊢
    rw [isPrefixOf_quotes rest h.neutral_left] at hread
    rw [isPrefixOf_quotes rest h.neutral_right]
    split at hread
    · rename_i htriple
      rw [if_pos htriple]
      have hlength : 2 ≤ rest.length :=
        (List.isPrefixOf_iff_prefix.1 htriple).length_le
      rw [List.drop_append_of_le_length hlength] at hread ⊢
      split at hread
      · rename_i body after' hsplit
        obtain ⟨hliteral, rfl⟩ := Opening.closed.inj hread
        have hbody := splitAtCloser_append hsplit
        rw [← List.append_assoc] at hbody
        have hrest := List.append_cancel_right hbody
        have hother := splitAtCloser_of_some hsplit (after ++ w')
        rw [← List.append_assoc, hrest] at hother
        simp only [hother, hliteral]
      · cases hread
    · rename_i htriple
      rw [if_neg htriple]
      split at hread
      · rename_i body after' hbody
        obtain ⟨hliteral, rfl⟩ := Opening.closed.inj hread
        have hrest := readBody_append hbody
        rw [← List.append_assoc] at hrest
        have hother := readBody_of_closed hbody (after ++ w')
        rw [← List.append_assoc, List.append_cancel_right hrest] at hother
        simp only [hother, hliteral]
      · cases hread
      · cases hread

end Tail

namespace LineScan

open StringLiteral

/-- A run of characters that ends in front of an end of a line, or before, ends there with the new
end too. -/
theorem run_of_tail {member : Char → Bool} {text after w w' : Text}
    (hstop : after = [] → ∀ c ∈ w'.head?, member c = false)
    (h : (text ++ w).dropWhile member = after ++ w) :
    (text ++ w').takeWhile member = (text ++ w).takeWhile member ∧
      (text ++ w').dropWhile member = after ++ w' := by
  have hsplit := List.takeWhile_append_dropWhile (p := member) (l := text ++ w)
  rw [h, ← List.append_assoc] at hsplit
  have htext := List.append_cancel_right hsplit
  have hmember : ∀ c ∈ (text ++ w).takeWhile member, member c = true :=
    fun c hc => List.mem_takeWhile_imp hc
  have hnone : (after ++ w').takeWhile member = [] ∧
      (after ++ w').dropWhile member = after ++ w' := by
    have hhead : ∀ c ∈ (after ++ w').head?, member c = false := by
      cases after with
      | nil => exact hstop rfl
      | cons d after =>
        have hd := List.head?_dropWhile_not member (text ++ w)
        rw [h] at hd
        intro c hc
        cases hc
        exact hd
    cases hbehind : after ++ w' with
    | nil => exact ⟨rfl, rfl⟩
    | cons c rest =>
      rw [hbehind] at hhead
      have hc := hhead c rfl
      simp [hc]
  have hnew : text ++ w' = (text ++ w).takeWhile member ++ (after ++ w') := by
    rw [← List.append_assoc, htext]
  rw [hnew, List.takeWhile_append_of_pos hmember, List.dropWhile_append_of_pos hmember, hnone.1,
    hnone.2, List.append_nil]
  exact ⟨rfl, rfl⟩

/-- A comment that reaches up to an end of a line is ended by a break there. -/
theorem comment_stop_of_tail {w w' : Text} (hw : Tail w w') {text after : Text}
    (h : (text ++ w).dropWhile (fun c => !Text.isBreak c) = after ++ w) :
    after = [] → ∀ c ∈ w'.head?, (!Text.isBreak c) = false := by
  rintro rfl c hc
  have hhead := List.head?_dropWhile_not (fun c => !Text.isBreak c) (text ++ w)
  rw [h, List.nil_append] at hhead
  cases hw with
  | feed =>
    cases hc
    rfl
  | joined spaces mark hspaces hmark =>
    exfalso
    cases spaces with
    | nil =>
      simp only [isContinuation, Bool.or_eq_true, beq_iff_eq] at hmark
      rcases hmark with rfl | rfl <;> cases hhead
    | cons d spaces =>
      obtain rfl := hspaces d (List.mem_cons_self ..)
      cases hhead
  | ended => cases hc

/-- A character in front of an end of a line stays plain with the new end. -/
theorem Plain.of_tail {w w' : Text} (hw : Tail w w') {c : Char} {text : Text}
    (hfeed : '\n' ∉ text) (h : Plain c (text ++ w)) : Plain c (text ++ w') := by
  refine ⟨h.blank, h.backslash, h.feed, ?_, h.comment⟩
  rintro ⟨-, hhead⟩
  cases text with
  | nil => rcases hw.head_right with rfl | ⟨rest, rfl⟩ | ⟨rest, rfl⟩ <;> cases hhead
  | cons d text =>
    cases hhead
    exact hfeed (List.mem_cons_self ..)

theorem length_of_tail {w w' : Text} (hw : Tail w w') {text : Text} {n : Nat}
    (h : Number.length (text ++ w) = n) : Number.length (text ++ w') = n := by
  rw [(Number.length_local text w' hw.neutral_right.bounds).1,
    ← (Number.length_local text w hw.neutral_left.bounds).1, h]

/-- A piece in front of an end of a line is the same with the new end. -/
theorem Taken.of_tail {w w' : Text} (hw : Tail w w') {depth : Nat} {c : Char} {text after : Text}
    {piece : Piece} (hfeed : '\n' ∉ c :: text) (h : Taken depth c (text ++ w) piece (after ++ w)) :
    Taken depth c (text ++ w') piece (after ++ w') := by
  have hcover := (front_covers depth c (text ++ w))
  rw [front_of_taken h] at hcover
  have hpiece : piece.text ++ after = c :: text := by
    have happend := hcover.1
    rw [← List.append_assoc, ← List.cons_append] at happend
    exact List.append_cancel_right happend
  have hrest : '\n' ∉ text := fun hmem => hfeed (List.mem_cons_of_mem _ hmem)
  generalize hbehind : after ++ w = behind at h
  cases h with
  | blanks hc =>
    have hstop : ∀ d ∈ w'.head?, Text.isBlank d = false := by
      intro d hd
      rcases hw.head_right with rfl | ⟨rest, rfl⟩ | ⟨rest, rfl⟩ <;> cases hd <;> rfl
    rw [← List.cons_append] at hbehind ⊢
    obtain ⟨htake, hdrop⟩ := run_of_tail (fun _ => hstop) hbehind.symm
    rw [← htake, ← hdrop]
    exact .blanks hc
  | backslash hc hopen =>
    have htext : after = text := by simpa [Piece.text] using hpiece
    subst hc htext
    refine .backslash rfl ?_
    cases after with
    | cons d after =>
      simp only [List.mem_cons, not_or] at hrest
      exact hw.not_continuation (Ne.symm hrest.1) hrest.2
    | nil =>
      cases hw with
      | feed => cases hopen
      | joined => rfl
      | ended => rfl
  | feed hc =>
    subst hc
    exact absurd (List.mem_cons_self ..) hfeed
  | returnFeed other hc hother =>
    subst hc
    cases text with
    | cons d text =>
      obtain ⟨rfl, -⟩ := List.cons.inj hother
      exact absurd (List.mem_cons_self ..) hrest
    | nil => simp [Piece.text] at hpiece
  | comment hc =>
    subst hc
    rw [← List.cons_append] at hbehind ⊢
    have hstop := comment_stop_of_tail hw hbehind.symm
    obtain ⟨htake, hdrop⟩ := run_of_tail hstop hbehind.symm
    rw [← htake, ← hdrop]
    exact .comment rfl
  | number hplain length hlength hpos =>
    obtain ⟨hold, hle⟩ := Number.length_local (c :: text) w hw.neutral_left.bounds
    obtain ⟨hnew, -⟩ := Number.length_local (c :: text) w' hw.neutral_right.bounds
    rw [← List.cons_append] at hlength hbehind ⊢
    rw [hold] at hlength
    rw [hlength] at hnew hle
    rw [List.drop_append_of_le_length hle] at hbehind
    have htake : (c :: text ++ w).take length = (c :: text ++ w').take length := by
      rw [List.take_append_of_le_length hle, List.take_append_of_le_length hle]
    have hdrop : (c :: text ++ w').drop length = after ++ w' := by
      rw [List.drop_append_of_le_length hle, List.append_cancel_right hbehind]
    rw [htake, ← hdrop]
    exact .number (hplain.of_tail hw hrest) length hnew hpos
  | string hplain hnumber literal other hread =>
    subst hbehind
    rw [← List.cons_append] at hread hnumber
    have hliteral : literal ++ after = c :: text := hpiece
    rw [← hliteral, List.append_assoc] at hread
    have hclosed := hw.read_of_closed hread
    rw [← List.append_assoc, hliteral] at hclosed
    exact .string (hplain.of_tail hw hrest) (length_of_tail hw hnumber) literal _ hclosed
  | name hplain hnumber hread hc =>
    rw [← List.cons_append] at hbehind hnumber hread ⊢
    obtain ⟨htake, hdrop⟩ := run_of_tail (fun _ => hw.neutral_right.not_continue) hbehind.symm
    rw [← htake, ← hdrop]
    exact .name (hplain.of_tail hw hrest) (length_of_tail hw hnumber)
      (hw.read_of_none hfeed hread) hc
  | numeral hplain hnumber hread hstart hc =>
    rw [← List.cons_append] at hbehind hnumber hread ⊢
    obtain ⟨htake, hdrop⟩ := run_of_tail (fun _ => hw.neutral_right.not_continue) hbehind.symm
    rw [← htake, ← hdrop]
    exact .numeral (hplain.of_tail hw hrest) (length_of_tail hw hnumber)
      (hw.read_of_none hfeed hread) hstart hc
  | operator hplain hnumber hread hc operator hlongest =>
    rw [← List.cons_append] at hbehind hnumber hread hlongest
    rw [Operator.longest?_append_neutral _ hw.neutral_left] at hlongest
    have hle : operator.length ≤ (c :: text).length := by
      rw [← Operator.longest?_append hlongest, List.length_append]
      exact Nat.le_add_right _ _
    rw [List.drop_append_of_le_length hle] at hbehind
    have hdrop : (c :: text ++ w').drop operator.length = after ++ w' := by
      rw [List.drop_append_of_le_length hle, List.append_cancel_right hbehind]
    rw [← hdrop]
    refine .operator (hplain.of_tail hw hrest) (length_of_tail hw hnumber)
      (hw.read_of_none hfeed hread) hc operator ?_
    rw [← List.cons_append, Operator.longest?_append_neutral _ hw.neutral_right, hlongest]
  | stray hplain hnumber hread hc hlongest =>
    rw [← List.cons_append] at hnumber hread hlongest
    rw [Operator.longest?_append_neutral _ hw.neutral_left] at hlongest
    rw [List.append_cancel_right hbehind]
    refine .stray (hplain.of_tail hw hrest) (length_of_tail hw hnumber)
      (hw.read_of_none hfeed hread) hc ?_
    rw [← List.cons_append, Operator.longest?_append_neutral _ hw.neutral_right, hlongest]

def Result.behind (pieces : List Piece) (r : Result) : Result :=
  { r with pieces := pieces ++ r.pieces }

/-- The scan of a line falls into what is cut in front of an end of the line and the scan of that
end, and with the new end into the same pieces and the scan of the new end. -/
theorem scan_of_tail {w w' : Text} (hw : Tail w w') {depth : Nat} {text : Text}
    {pieces more : List Piece} (hfeed : '\n' ∉ text) (hcover : Piece.cover pieces = text)
    (h : (scan depth (text ++ w)).pieces = pieces ++ more) :
    scan depth (text ++ w) = (scan (pieces.foldl depthAfter depth) w).behind pieces ∧
      scan depth (text ++ w') = (scan (pieces.foldl depthAfter depth) w').behind pieces := by
  induction pieces generalizing depth text with
  | nil =>
    subst hcover
    exact ⟨rfl, rfl⟩
  | cons piece pieces ih =>
    rw [Piece.cover_cons] at hcover
    have hne : text ++ w ≠ [] := List.append_ne_nil_of_right_ne_nil _ hw.left_ne_nil
    obtain ⟨c, rest, hline⟩ := List.exists_cons_of_ne_nil hne
    rw [hline] at h
    cases hfront : front depth c rest with
    | unclosed d =>
      rw [scan, List.length_cons, scanUpTo, hfront] at h
      cases h
    | continuation =>
      -- The piece would cover the end of the line as well.
      exfalso
      rw [scan, List.length_cons, scanUpTo, hfront] at h
      obtain ⟨rfl, -⟩ := List.cons.inj h
      change c :: rest ++ Piece.cover pieces = text at hcover
      have hlength := congrArg List.length hcover
      rw [← hline, List.length_append, List.length_append] at hlength
      have hpos := List.length_pos_iff.2 hw.left_ne_nil
      omega
    | piece first after =>
      have hcovers := front_covers depth c rest
      rw [hfront] at hcovers
      obtain ⟨happend, hfirst⟩ := hcovers
      rw [scan_of_piece hfront] at h
      obtain ⟨rfl, hmore⟩ := List.cons.inj h
      rw [← hline, ← hcover, List.append_assoc] at happend
      obtain rfl := List.append_cancel_left happend
      obtain ⟨d, begun, hbegun⟩ := List.exists_cons_of_ne_nil hfirst
      rw [← hcover, hbegun, List.cons_append, List.cons_append, List.cons.injEq] at hline
      obtain ⟨rfl, rfl⟩ := hline
      rw [← hcover, hbegun, List.cons_append] at hfeed ⊢
      have hfront' := front_of_taken ((taken_of_front hfront).of_tail hw hfeed)
      have hbehind : '\n' ∉ Piece.cover pieces :=
        fun hmem => hfeed (List.mem_cons_of_mem _ (List.mem_append_right _ hmem))
      obtain ⟨hold, hnew⟩ := ih hbehind rfl hmore
      rw [List.cons_append, List.cons_append, scan_of_piece hfront, scan_of_piece hfront', hold,
        hnew]
      exact ⟨rfl, rfl⟩

end LineScan

end SourceTokens
