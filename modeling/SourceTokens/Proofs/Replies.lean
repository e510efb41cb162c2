import SourceTokens.Proofs.Extents
import SourceTokens.Proofs.Requests
import SourceTokens.Proofs.Scrubbing

/-!
Replies that are read back. The document of a reply does not say what kind of reply it is, but no
list of texts reads as tokens unless it is empty, and no refusal reads as a list. So a reply is
recovered from its bytes, up to the physical lines of its tokens, whenever its places fit 32 bits.
The service for Python never sends an empty list.
-/

namespace SourceTokens

def Position.Fits (p : Position) : Prop := p.line < Nat.pow 2 32 ∧ p.col < Nat.pow 2 32

def Token.Fits (t : Token) : Prop := t.start.Fits ∧ t.stop.Fits

namespace Reply

def Fits : Reply → Prop
  | .tokens list => ∀ t ∈ list, t.Fits
  | .texts _ => True
  | .refusal r => ∀ p ∈ r.position, p.Fits

def record : Reply → Reply
  | .tokens list => .tokens (list.map Token.record)
  | .texts list => .texts list
  | .refusal r => .refusal r

end Reply

section ReadBack

theorem Json.word?_ofNat {n m : Nat} :
    (Json.ofNat n).word? = some m ↔ n < Nat.pow 2 32 ∧ m = n := by
  have hnat : (Json.ofNat n).nat? = some n := rfl
  rw [Json.word?, hnat, Option.filter_eq_some_iff, Option.some.injEq, decide_eq_true_eq]
  constructor
  · rintro ⟨rfl, h⟩
    exact ⟨h, rfl⟩
  · rintro ⟨h, rfl⟩
    exact ⟨rfl, h⟩

theorem Position.ofJson?_toJson {p q : Position} :
    Position.ofJson? p.toJson = some q ↔ p.Fits ∧ q = p := by
  simp only [toJson, ofJson?, Option.bind_eq_bind, Option.bind_eq_some_iff, Json.word?_ofNat,
    Option.some.injEq]
  constructor
  · rintro ⟨_, ⟨hline, rfl⟩, _, ⟨hcol, rfl⟩, rfl⟩
    exact ⟨⟨hline, hcol⟩, rfl⟩
  · rintro ⟨⟨hline, hcol⟩, rfl⟩
    exact ⟨_, ⟨hline, rfl⟩, _, ⟨hcol, rfl⟩, rfl⟩

theorem TokenKind.ofJson?_toJson (kind : TokenKind) :
    TokenKind.ofJson? kind.toJson = some kind := by
  cases kind <;> decide

theorem Refusal.Kind.ofJson?_label (kind : Refusal.Kind) :
    Refusal.Kind.ofJson? (.ofText kind.label) = some kind := by
  cases kind <;> decide

theorem Token.fields?_toJson (t : Token) : t.toJson.fields? Token.fieldNames =
    some [some t.kind.toJson, some (.ofText t.value), some t.start.toJson, some t.stop.toJson] := by
  have hnodup : Token.fieldNames.Nodup := by decide
  exact @Json.fields?_record [("kind".toList, some t.kind.toJson),
    ("value".toList, some (.ofText t.value)), ("start".toList, some t.start.toJson),
    ("end".toList, some t.stop.toJson)] hnodup

theorem Token.ofJson?_toJson {t u : Token} :
    Token.ofJson? t.toJson = some u ↔ t.Fits ∧ u = t.record := by
  have htext : (Json.ofText t.value).text? = some t.value := rfl
  simp only [ofJson?, fields?_toJson, TokenKind.ofJson?_toJson, htext, Option.bind_eq_bind,
    Option.bind_some, Option.bind_eq_some_iff, Position.ofJson?_toJson, Option.some.injEq]
  constructor
  · rintro ⟨_, ⟨hstart, rfl⟩, _, ⟨hstop, rfl⟩, rfl⟩
    exact ⟨⟨hstart, hstop⟩, rfl⟩
  · rintro ⟨⟨hstart, hstop⟩, rfl⟩
    exact ⟨_, ⟨hstart, rfl⟩, _, ⟨hstop, rfl⟩, rfl⟩

theorem Token.listOfJson?_listToJson {list read : List Token} :
    Token.listOfJson? (Token.listToJson list) = some read ↔
      (∀ t ∈ list, t.Fits) ∧ read = list.map Token.record :=
  Json.mapM_map_eq_some_iff fun _ _ _ => Token.ofJson?_toJson

theorem Refusal.fields?_toJson (r : Refusal) : r.toJson.fields? Refusal.fieldNames =
    some [some (.ofText r.kind.label), some (.ofText r.message),
      r.position.map Position.toJson] := by
  have hnodup : Refusal.fieldNames.Nodup := by decide
  exact @Json.fields?_record [("error".toList, some (.ofText r.kind.label)),
    ("message".toList, some (.ofText r.message)),
    ("position".toList, r.position.map Position.toJson)] hnodup

theorem Refusal.ofJson?_toJson {r s : Refusal} :
    Refusal.ofJson? r.toJson = some s ↔ (∀ p ∈ r.position, p.Fits) ∧ s = r := by
  have htext : (Json.ofText r.message).text? = some r.message := rfl
  have hposition (p : Option Position) :
      Json.optional? Position.ofJson? (r.position.map Position.toJson) = some p ↔
        (∀ p ∈ r.position, p.Fits) ∧ p = r.position := by
    cases r.position with
    | none => simp [Json.optional?, eq_comm]
    | some q =>
      change (Position.ofJson? q.toJson).map some = some p ↔ _
      rw [Option.map_eq_some_iff]
      simp only [Position.ofJson?_toJson, Option.mem_some_iff, forall_eq']
      constructor
      · rintro ⟨_, ⟨hfits, rfl⟩, rfl⟩
        exact ⟨hfits, rfl⟩
      · rintro ⟨hfits, rfl⟩
        exact ⟨q, ⟨hfits, rfl⟩, rfl⟩
  simp only [ofJson?, fields?_toJson, Kind.ofJson?_label, htext, Option.bind_eq_bind,
    Option.bind_some, Option.bind_eq_some_iff, hposition, Option.some.injEq]
  constructor
  · rintro ⟨_, ⟨hfits, rfl⟩, rfl⟩
    exact ⟨hfits, rfl⟩
  · rintro ⟨hfits, rfl⟩
    exact ⟨_, ⟨hfits, rfl⟩, rfl⟩

end ReadBack

section Readable

variable {limit : Nat}

theorem Json.isReadable_ofText (limit : Nat) (text : Text) : (Json.ofText text).isReadable limit :=
  rfl

theorem Position.isReadable_toJson {p : Position} (h : p.Fits) :
    p.toJson.isReadable (limit + 1) := by
  have hnat {n : Nat} (hn : n < Nat.pow 2 32) : (Json.ofNat n).isReadable limit :=
    Json.Number.fitsDouble_ofNat (hn.trans (by decide))
  refine Json.isReadable_array fun item hitem => ?_
  obtain rfl | rfl := by simpa using hitem
  · exact hnat h.1
  · exact hnat h.2

theorem Token.isReadable_toJson {t : Token} (h : t.Fits) : t.toJson.isReadable (limit + 2) := by
  refine Json.isReadable_record fun member hmember value hvalue => ?_
  obtain rfl | rfl | rfl | rfl := by simpa using hmember
  all_goals obtain rfl := Option.some.inj hvalue
  · exact Json.isReadable_ofText _ _
  · exact Json.isReadable_ofText _ _
  · exact Position.isReadable_toJson h.1
  · exact Position.isReadable_toJson h.2

theorem Refusal.isReadable_toJson {r : Refusal} (h : ∀ p ∈ r.position, p.Fits) :
    r.toJson.isReadable (limit + 2) := by
  refine Json.isReadable_record fun member hmember value hvalue => ?_
  obtain rfl | rfl | rfl := by simpa using hmember
  · obtain rfl := Option.some.inj hvalue
    exact Json.isReadable_ofText _ _
  · obtain rfl := Option.some.inj hvalue
    exact Json.isReadable_ofText _ _
  · obtain ⟨p, hp, rfl⟩ := Option.map_eq_some_iff.1 hvalue
    exact Position.isReadable_toJson (h p hp)

/-- A reply is readable far above the depth that is allowed. -/
theorem Reply.isReadable_toJson {r : Reply} (h : r.Fits) : r.toJson.isReadable depthLimit := by
  cases r with
  | tokens list =>
    refine Json.isReadable_array fun item hitem => ?_
    obtain ⟨t, ht, rfl⟩ := List.mem_map.1 hitem
    exact Token.isReadable_toJson (h t ht)
  | texts list =>
    refine Json.isReadable_array fun item hitem => ?_
    obtain ⟨text, -, rfl⟩ := List.mem_map.1 hitem
    exact Json.isReadable_ofText _ text
  | refusal r => exact Refusal.isReadable_toJson h

end Readable

namespace Reply

/-- A document is read as the first kind of reply that fits. -/
theorem ofJson?_eq_some_iff {document : Json} {r : Reply} :
    ofJson? document = some r ↔ document.isReadable depthLimit ∧
      match r with
      | .tokens list => Token.listOfJson? document = some list
      | .texts list => Token.listOfJson? document = none ∧ textsOfJson? document = some list
      | .refusal s => Token.listOfJson? document = none ∧ textsOfJson? document = none ∧
          Refusal.ofJson? document = some s := by
  unfold ofJson?
  cases document.isReadable depthLimit with
  | false => simp
  | true =>
    cases Token.listOfJson? document <;> cases textsOfJson? document <;>
      cases Refusal.ofJson? document <;> cases r <;> simp

theorem textsOfJson?_toJson (list : List Text) :
    textsOfJson? (Reply.texts list).toJson = some list := by
  change (list.map Json.ofText).mapM Json.text? = some list
  induction list with
  | nil => rfl
  | cons text rest ih =>
    rw [List.map_cons, List.mapM_cons, ih]
    rfl

/-- No text reads as a token. -/
theorem listOfJson?_texts (list : List Text) :
    Token.listOfJson? (Reply.texts list).toJson = if list = [] then some [] else none := by
  cases list <;> rfl

theorem ofJson?_toJson {r : Reply} :
    ofJson? r.toJson = some r.record ↔ r ≠ .texts [] ∧ r.Fits := by
  rw [ofJson?_eq_some_iff]
  cases r with
  | tokens list =>
    have hlist := @Token.listOfJson?_listToJson list (list.map Token.record)
    constructor
    · rintro ⟨-, hread⟩
      exact ⟨fun h => Reply.noConfusion h, (hlist.1 hread).1⟩
    · rintro ⟨-, hfits⟩
      exact ⟨isReadable_toJson hfits, hlist.2 ⟨hfits, rfl⟩⟩
  | texts list =>
    have hfits : (Reply.texts list).Fits := trivial
    constructor
    · rintro ⟨-, hnone, -⟩
      refine ⟨?_, trivial⟩
      rintro ⟨⟩
      cases hnone
    · rintro ⟨hne, -⟩
      refine ⟨isReadable_toJson hfits, ?_, textsOfJson?_toJson list⟩
      rw [listOfJson?_texts, if_neg (mt (congrArg Reply.texts) hne)]
  | refusal s =>
    have hrefusal := @Refusal.ofJson?_toJson s s
    constructor
    · rintro ⟨-, -, -, hread⟩
      exact ⟨fun h => Reply.noConfusion h, (hrefusal.1 hread).1⟩
    · rintro ⟨-, hfits⟩
      exact ⟨isReadable_toJson hfits, rfl, rfl, hrefusal.2 ⟨hfits, rfl⟩⟩

theorem decode?_encode (r : Reply) : decode? (Utf8.encode r.encode) = ofJson? r.toJson := by
  rw [decode?, encode, Json.ofBytes?_encode_print, Option.bind_some]

end Reply

/-- The end of a source is marked among its tokens, and scrubbing keeps that mark. -/
theorem exists_mem_scrub {source : Text} {tokens : List Token} (h : tokenize source = .ok tokens) :
    ∃ t ∈ tokens, t ∈ scrub tokens := by
  obtain ⟨pieces, levels, hacc⟩ := exists_accepted h
  have hmem : ∃ t ∈ tokens, t.kind = .endMarker := by
    rw [hacc.tokens_eq]
    exact ⟨_, List.mem_append_right _ (List.mem_append_right _ (List.mem_singleton.2 rfl)), rfl⟩
  obtain ⟨t, ht, hkind⟩ := hmem
  refine ⟨t, ht, mem_dropSuperseded (List.mem_filter.2 ⟨ht, ?_⟩) ?_⟩
  · simp [Token.isNoise, hkind]
  · rw [hkind]
    decide

namespace Tokenizer

theorem replyTo_python_ne (payload : List UInt8) :
    python.replyTo payload ≠ .texts [] ∧ python.replyTo payload ≠ .tokens [] := by
  obtain ⟨e, hreply⟩ | ⟨r, body, -, -, hreply⟩ := replyTo_cases python payload
  · rw [hreply]
    exact ⟨fun h => Reply.noConfusion h, fun h => Reply.noConfusion h⟩
  · rw [hreply, serve]
    split
    · exact ⟨fun h => Reply.noConfusion h, fun h => Reply.noConfusion h⟩
    · rename_i tokens htokens
      obtain ⟨t, ht, hscrub⟩ := exists_mem_scrub htokens
      have hne := List.ne_nil_of_mem ht
      have hscrubbed := List.ne_nil_of_mem hscrub
      cases r.operation <;> simp [replyWith, hne, hscrubbed]

/-- The places of what a body is served with fit 32 bits if the body is not too long for them. -/
theorem fits_serve_python {body : Text} (h : body.length + 1 < Nat.pow 2 32)
    (operation : Operation) : (python.serve body operation).Fits := by
  have hfits {p : Position} (hp : p.Within (body.length + 1)) : p.Fits :=
    ⟨hp.1.trans_lt h, hp.2.trans_lt h⟩
  unfold serve
  split
  · rename_i e herror
    intro p hp
    obtain rfl := Option.mem_some_iff.1 hp
    exact hfits (within_of_error herror)
  · rename_i tokens htokens
    obtain ⟨pieces, levels, hacc⟩ := exists_accepted htokens
    have htoken : ∀ t ∈ tokens, t.Fits := fun t ht =>
      ⟨hfits (hacc.within ht).1, hfits (hacc.within ht).2⟩
    cases operation with
    | tokens => exact htoken
    | scrub => exact fun t ht => htoken t ((scrub_sublist tokens).subset ht)
    | display => trivial

theorem fits_replyTo_python {payload : List UInt8}
    (h : ∀ r, Request.decode payload = .ok r → ∀ body ∈ r.body, body.length + 1 < Nat.pow 2 32) :
    (python.replyTo payload).Fits := by
  obtain ⟨e, hreply⟩ | ⟨r, body, hdecode, hbody, hreply⟩ := replyTo_cases python payload
  · rw [hreply]
    intro p hp
    cases hp
  · obtain ⟨_, -, -, hcontent⟩ := Request.bodyFor_eq_ok_iff.1 hbody
    rw [hreply]
    exact fits_serve_python (h r hdecode body hcontent) r.operation

end Tokenizer

/-- A reply is recovered from its bytes exactly if its places fit 32 bits and it is no empty list
of texts, which comes back as one of tokens. The service for Python sends no empty list at all, so
all of its replies are recovered as long as no body is too long for its places to fit. -/
theorem Reply.recovered :
    (∀ r : Reply, Reply.decode? (Utf8.encode r.encode) = some r.record ↔
      r ≠ .texts [] ∧ r.Fits) ∧
    Reply.decode? (Utf8.encode (Reply.texts []).encode) = some (.tokens []) ∧
    ∀ payload, Tokenizer.python.replyTo payload ≠ .texts [] ∧
      Tokenizer.python.replyTo payload ≠ .tokens [] ∧
      ((∀ r, Request.decode payload = .ok r →
          ∀ body ∈ r.body, body.length + 1 < Nat.pow 2 32) →
        Reply.decode? (Utf8.encode (Tokenizer.python.replyTo payload).encode) =
          some (Tokenizer.python.replyTo payload).record) := by
  have hrecovered (r : Reply) : Reply.decode? (Utf8.encode r.encode) = some r.record ↔
      r ≠ .texts [] ∧ r.Fits := by
    rw [decode?_encode]
    exact ofJson?_toJson
  refine ⟨hrecovered, ?_, fun payload => ?_⟩
  · rw [decode?_encode]
    exact ofJson?_eq_some_iff.2 ⟨rfl, rfl⟩
  · obtain ⟨htexts, htokens⟩ := Tokenizer.replyTo_python_ne payload
    exact ⟨htexts, htokens, fun h =>
      (hrecovered _).2 ⟨htexts, Tokenizer.fits_replyTo_python h⟩⟩

/-- A refusal with characters that are escaped, and a reply for Python. -/
theorem Reply.recovered_of_escapes_and_tokens :
    let refusal : Reply := .refusal ⟨.source, ['"', '\\', '\x01', 'é'], some ⟨3, 7⟩⟩
    let payload := Utf8.encode "\x7b\"body\":\"x\",\"language\":\"Python\"\x7d".toList
    let tokens : List Token := [⟨.name, ['x'], ⟨1, 0⟩, ⟨1, 1⟩, some ['x']⟩,
      ⟨.newline, [], ⟨1, 1⟩, ⟨1, 2⟩, none⟩, ⟨.endMarker, [], ⟨2, 0⟩, ⟨2, 0⟩, none⟩]
    Reply.decode? (Utf8.encode refusal.encode) = some refusal ∧
      Tokenizer.python.replyTo payload = .tokens tokens ∧
      Reply.decode? (Utf8.encode (Reply.tokens tokens).encode) =
        some (.tokens (tokens.map Token.record)) := by
  intro refusal payload tokens
  have hdecode : Request.decode payload = .ok ⟨some "Python".toList, some ['x'], .tokens⟩ := by rfl
  have hreply : Tokenizer.python.replyTo payload = .tokens tokens := by rfl
  have hfits : refusal.Fits := by
    intro p hp
    obtain rfl := Option.mem_some_iff.1 hp
    exact ⟨by decide, by decide⟩
  refine ⟨(Reply.recovered.1 refusal).2 ⟨fun h => Reply.noConfusion h, hfits⟩, hreply, ?_⟩
  have hpython := (Reply.recovered.2.2 payload).2.2
  rw [hreply] at hpython
  refine hpython fun r hr body hbody => ?_
  rw [hdecode] at hr
  cases hr
  obtain rfl := Option.mem_some_iff.1 hbody
  decide

end SourceTokens
