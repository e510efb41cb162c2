import SourceTokens.Proofs.OpenStrings

/-!
Where strings end. A string of an accepted source ends behind the first closing quotes that one pass
over the source meets, a pass that knows of no lines and steps over every character behind a
backslash. A source whose end is reached inside a string holds no closing quotes behind the opening
ones, and it is rejected at the start of the literal.
-/

namespace SourceTokens

namespace StringLiteral

/-- One pass over a text up to the first closing quotes. A backslash takes the next character with
it, whatever that is. -/
inductive ReadsUpTo (closer : Text) : Text → Text → Text → Prop
  | found (after : Text) : ReadsUpTo closer (closer ++ after) [] after
  | escape (c : Char) (rest passed after : Text) (h : ReadsUpTo closer rest passed after) :
      ReadsUpTo closer ('\\' :: c :: rest) ('\\' :: c :: passed) after
  | plain (c : Char) (rest passed after : Text) (hescape : c ≠ '\\')
      (hother : ¬ closer <+: c :: rest) (h : ReadsUpTo closer rest passed after) :
      ReadsUpTo closer (c :: rest) (c :: passed) after

variable {d : Delimiter} {text passed after body letters : Text}

theorem splitAtCloser_of_readsUpTo (h : ReadsUpTo d.text text passed after) :
    splitAtCloser d text = some (passed ++ d.text, after) := by
  induction h with
  | found after =>
    obtain ⟨quote, triple⟩ := d
    cases triple <;> cases quote <;> rfl
  | escape c rest passed after h ih =>
    rw [splitAtCloser, ih]
    rfl
  | plain c rest passed after hescape hother h ih =>
    rw [splitAtCloser_cons hescape, if_neg (mt List.isPrefixOf_iff_prefix.1 hother), ih]
    rfl

theorem readsUpTo_of_splitAtCloser (h : splitAtCloser d text = some (body, after)) :
    ∃ passed, body = passed ++ d.text ∧ ReadsUpTo d.text text passed after := by
  fun_induction splitAtCloser d text generalizing body after with
  | case1 => cases h
  | case2 c rest ih =>
    obtain ⟨⟨body', after'⟩, hsplit, heq⟩ := Option.map_eq_some_iff.1 h
    cases heq
    obtain ⟨passed, rfl, hreads⟩ := ih hsplit
    exact ⟨'\\' :: c :: passed, rfl, .escape c rest passed after hreads⟩
  | case3 c rest hc hprefix =>
    cases h
    obtain ⟨more, hmore⟩ := List.isPrefixOf_iff_prefix.1 hprefix
    rw [← hmore, List.drop_left]
    exact ⟨[], rfl, .found more⟩
  | case4 c rest hc hprefix ih =>
    obtain ⟨⟨body', after'⟩, hsplit, heq⟩ := Option.map_eq_some_iff.1 h
    cases heq
    obtain ⟨passed, rfl, hreads⟩ := ih hsplit
    have hbackslash : c ≠ '\\' := by
      rintro rfl
      cases rest with
      | nil => cases hsplit
      | cons e more => exact hc e more rfl rfl
    exact ⟨c :: passed, rfl, .plain c rest passed after hbackslash
      (mt List.isPrefixOf_iff_prefix.2 hprefix) hreads⟩

theorem ne_quote_of_letters {c : Char} (h : isLetters letters) (hc : c ∈ letters) (q : Quote) :
    c ≠ q.char := by
  rintro rfl
  have hmem := List.mem_map_of_mem (f := Char.toLower) hc
  simp only [isLetters, Bool.or_eq_true, List.isEmpty_iff] at h
  rcases h with rfl | htable
  · cases hc
  · rw [List.contains_iff_mem] at htable
    have hletters : ∀ entry ∈ letterTable, q.char.toLower ∉ entry := by cases q <;> decide
    exact hletters _ htable hmem

theorem Quote.char_injective {q q' : Quote} (h : q.char = q'.char) : q = q' := by
  cases q <;> cases q' <;> first | rfl | exact absurd h (by decide)

/-- The letters of a literal end in front of its first quote. -/
theorem letters_unique {letters' a b : Text} {q q' : Quote} (hletters : isLetters letters)
    (hletters' : isLetters letters') (h : letters ++ q.char :: a = letters' ++ q'.char :: b) :
    letters = letters' ∧ q = q' ∧ a = b := by
  rcases List.append_eq_append_iff.1 h with ⟨more, rfl, hmore⟩ | ⟨more, rfl, hmore⟩
  · cases more with
    | nil =>
      obtain ⟨hq, rfl⟩ := List.cons.inj hmore
      exact ⟨(List.append_nil letters).symm, Quote.char_injective hq, rfl⟩
    | cons c more =>
      obtain ⟨rfl, -⟩ := List.cons.inj hmore
      exact absurd rfl (ne_quote_of_letters hletters' (by simp) q)
  · cases more with
    | nil =>
      obtain ⟨hq, rfl⟩ := List.cons.inj hmore
      exact ⟨List.append_nil letters', Quote.char_injective hq.symm, rfl⟩
    | cons c more =>
      obtain ⟨rfl, -⟩ := List.cons.inj hmore
      exact absurd rfl (ne_quote_of_letters hletters (by simp) q')

def Opens (d : Delimiter) (body : Text) : Prop :=
  d.triple ∨ ¬ [d.quote.char, d.quote.char] <+: body

theorem Closed.opens (h : Closed d body) : Opens d body := by
  cases htriple : d.triple with
  | true => exact .inl htriple
  | false => exact .inr (h.not_quotes htriple)

theorem Opened.opens (h : Opened d body) : Opens d body := by
  cases htriple : d.triple with
  | true => exact .inl htriple
  | false =>
    obtain ⟨c, rest, rfl, hc⟩ := h.exists_head htriple
    exact .inr fun hprefix => hc (List.cons_prefix_cons.1 hprefix).1.symm

/-- A literal opens in one way only. -/
theorem opens_unique {letters' body' : Text} {d' : Delimiter} (hletters : isLetters letters)
    (hletters' : isLetters letters') (hopens : Opens d body) (hopens' : Opens d' body')
    (h : letters ++ (d.text ++ body) = letters' ++ (d'.text ++ body')) :
    letters = letters' ∧ d = d' ∧ body = body' := by
  obtain ⟨q, triple⟩ := d
  obtain ⟨q', triple'⟩ := d'
  cases triple <;> cases triple' <;> obtain ⟨rfl, rfl, hbody⟩ := letters_unique hletters hletters' h
  · exact ⟨rfl, rfl, hbody⟩
  · refine absurd ?_ (hopens.resolve_left Bool.false_ne_true)
    exact ⟨body', hbody.symm⟩
  · refine absurd ?_ (hopens'.resolve_left Bool.false_ne_true)
    exact ⟨body, hbody⟩
  · exact ⟨rfl, rfl, @List.append_cancel_left _ [q.char, q.char] _ _ hbody⟩

end StringLiteral

open StringLiteral

variable {source : Text} {tokens : List Token} {pieces : List Piece} {levels : List Nat}

/-- Every string of an accepted source stands there as a literal that is closed. -/
theorem Accepted.closed_of_string (h : Accepted source tokens pieces levels) {t : Token}
    (ht : t ∈ tokens) (hkind : t.kind = .string) :
    ∃ before after, source = before ++ (t.value ++ after) ∧ Position.origin.past before = t.start ∧
      ∃ d, Spelled d (Closed d) t.value := by
  obtain ⟨before, kind, text, after, hpieces, rfl⟩ :=
    h.exists_lexeme_of_kind ht (by simp [hkind]) (by simp [hkind, TokenKind.isStructural])
  obtain rfl : kind = .string := hkind
  have hsource := h.source_eq hpieces
  rw [List.append_assoc] at hsource
  exact ⟨Piece.cover before, Piece.cover after, hsource, rfl, h.closed_of_lexeme hpieces⟩

theorem Accepted.readsUpTo_of_string (h : Accepted source tokens pieces levels) {t : Token}
    (ht : t ∈ tokens) (hkind : t.kind = .string) {letters body : Text} {d : Delimiter}
    (hletters : isLetters letters) (hopens : Opens d body)
    (hvalue : t.value = letters ++ (d.text ++ body)) :
    ∃ before passed after, source = before ++ (t.value ++ after) ∧
      Position.origin.past before = t.start ∧ body = passed ++ d.text ∧
        ReadsUpTo d.text (body ++ after) passed after := by
  obtain ⟨before, after, hsource, hstart, d', letters', body', hletters', hvalue', hclosed⟩ :=
    h.closed_of_string ht hkind
  obtain ⟨-, rfl, rfl⟩ :=
    opens_unique hletters hletters' hopens hclosed.opens (hvalue.symm.trans hvalue')
  obtain ⟨passed, hbody, hreads⟩ :=
    readsUpTo_of_splitAtCloser (splitAtCloser_of_some hclosed.split_eq after)
  exact ⟨before, passed, after, hsource, hstart, hbody, hreads⟩

theorem not_readsUpTo_of_open {s : Segmentation.State} {d : Delimiter} {text : Text}
    (hcut : Segmentation.cutLines {} (Text.lines source) = .ok (pieces, s))
    (hcarry : s.carry = .string d text) :
    ∃ letters body, isLetters letters ∧ text = letters ++ (d.text ++ body) ∧ Opens d body ∧
      ∀ passed after, ¬ ReadsUpTo d.text body passed after := by
  obtain ⟨letters, body, hletters, htext, hopened⟩ := Segmentation.opened_of_cutLines hcut hcarry
  refine ⟨letters, body, hletters, htext, hopened.opens, fun passed after hreads => ?_⟩
  have hsplit := splitAtCloser_of_readsUpTo hreads
  rw [hopened.split_eq_none] at hsplit
  cases hsplit

/-- Where a string ends and where an open one begins. A string that opens with three quotes, or with
one that two more do not follow, ends behind the first closing quotes that one pass meets behind the
opening ones, and a string that is open at the end of the source has no closing quotes there. -/
theorem tokenize_string_ends (source : Text) :
    (∀ tokens, tokenize source = .ok tokens → ∀ t ∈ tokens, t.kind = .string →
      ∀ letters d body, isLetters letters → Opens d body →
        t.value = letters ++ (d.text ++ body) →
          ∃ before passed after, source = before ++ (t.value ++ after) ∧
            Position.origin.past before = t.start ∧ body = passed ++ d.text ∧
              ReadsUpTo d.text (body ++ after) passed after) ∧
    ∀ pieces s d text, Segmentation.cutLines {} (Text.lines source) = .ok (pieces, s) →
      s.carry = .string d text →
        source = Piece.cover pieces ++ text ∧
        (∃ letters body, isLetters letters ∧ text = letters ++ (d.text ++ body) ∧ Opens d body ∧
          ∀ passed after, ¬ ReadsUpTo d.text body passed after) ∧
        ∃ e, tokenize source = .error e ∧ e.cause = .unterminatedString ∧
          e.position = Position.origin.past (Piece.cover pieces) := by
  constructor
  · intro tokens h t ht hkind letters d body hletters hopens hvalue
    obtain ⟨pieces, levels, hacc⟩ := exists_accepted h
    exact hacc.readsUpTo_of_string ht hkind hletters hopens hvalue
  · intro pieces s d text hcut hcarry
    have hcover := Segmentation.cutLines_cover hcut
    rw [hcarry, Text.flatten_lines] at hcover
    refine ⟨hcover.symm, not_readsUpTo_of_open hcut hcarry, ?_⟩
    rw [tokenize_of_cut hcut, finish, hcarry]
    exact ⟨_, rfl, rfl, rfl⟩

/-- Two lines hold a string whose first line feed and third quote are escaped. A source of one line
ends inside another string, whose first quote is escaped. -/
theorem tokenize_string_ends_of_escapes :
    (∃ before passed after,
      ['b', '"', '"', '"', 'é', '\\', '\n', '"', '"', '\\', '"', '"', '"', '"', '\n'] =
          before ++ (['b', '"', '"', '"', 'é', '\\', '\n', '"', '"', '\\', '"', '"', '"', '"'] ++
            after) ∧
        Position.origin.past before = ⟨1, 0⟩ ∧
        ['é', '\\', '\n', '"', '"', '\\', '"', '"', '"', '"'] = passed ++ ['"', '"', '"'] ∧
        ReadsUpTo ['"', '"', '"']
          (['é', '\\', '\n', '"', '"', '\\', '"', '"', '"', '"'] ++ after) passed after) ∧
    (∃ letters body, isLetters letters ∧
      ['r', '"', '"', '"', '\\', '"', '"', '"'] = letters ++ (['"', '"', '"'] ++ body) ∧
        Opens ⟨.double, true⟩ body ∧
          ∀ passed after, ¬ ReadsUpTo ['"', '"', '"'] body passed after) ∧
    ∃ e, tokenize ['x', '=', 'r', '"', '"', '"', '\\', '"', '"', '"'] = .error e ∧
      e.cause = .unterminatedString ∧ e.position = ⟨1, 2⟩ := by
  constructor
  · let line : Text := ['b', '"', '"', '"', 'é', '\\', '\n']
    let last : Text := ['"', '"', '\\', '"', '"', '"', '"', '\n']
    exact (tokenize_string_ends (line ++ last)).1
      [⟨.string, line ++ last.dropLast, ⟨1, 0⟩, ⟨2, 7⟩, some line⟩,
        ⟨.newline, ['\n'], ⟨2, 7⟩, ⟨2, 8⟩, some last⟩, ⟨.endMarker, [], ⟨3, 0⟩, ⟨3, 0⟩, none⟩]
      (by rfl) _ (List.mem_cons_self ..) rfl ['b'] ⟨.double, true⟩ _ rfl (.inl rfl) rfl
  · exact ((tokenize_string_ends ['x', '=', 'r', '"', '"', '"', '\\', '"', '"', '"']).2
      [.gap [], .lexeme .name ['x'], .lexeme .operator ['=']]
      { carry := .string ⟨.double, true⟩ ['r', '"', '"', '"', '\\', '"', '"', '"'] }
      ⟨.double, true⟩ _ (by rfl) rfl).2

end SourceTokens
