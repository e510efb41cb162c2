import SourceTokens.Proofs.JsonDocuments
import SourceTokens.Proofs.JsonRecords
import SourceTokens.Service.Basic

/-!
Which payloads are answered at all. A document asks for the tokens of a text if it is an object or
an array with the parts of a request in their places, and only a document that asks so in the
language of a tokenizer is answered by it. Everything else is refused as a fault of the request, so
of what is no object the only documents that are served are arrays of two or three items.
-/

namespace SourceTokens

open Json.Reader (Spells)

def Json.HasOnly (members : List (Option Text × Json)) (key : Text) (value : Json) : Prop :=
  ∃ front back, members = front ++ (some key, value) :: back ∧
    ∀ member ∈ front ++ back, member.1 ≠ some key

inductive Operation.Named (operation : Operation) : Json → Prop
  | text : Named operation (.ofText operation.label)
  | key : Named operation (.object [(some operation.label, .null)])

/-- The documents that ask for an operation on the tokens of a body in a language. -/
inductive Request.Asked (language body : Text) : Operation → Json → Prop
  | pair : Asked language body .tokens (.array [.ofText language, .ofText body])
  | triple {operation : Operation} {name : Json} (h : operation.Named name) :
      Asked language body operation (.array [.ofText language, .ofText body, name])
  | object {operation : Operation} {members : List (Option Text × Json)}
      (hkeys : ∀ member ∈ members, member.1.isSome)
      (hlanguage : Json.HasOnly members "language".toList (.ofText language))
      (hbody : Json.HasOnly members "body".toList (.ofText body))
      (hoperation : operation = .tokens ∧ (∀ member ∈ members, member.1 ≠ some "op".toList) ∨
        ∃ name, operation.Named name ∧ Json.HasOnly members "op".toList name) :
      Asked language body operation (.object members)

namespace Json

variable {members : List (Option Text × Json)} {key : Text}

theorem only?_eq_some_none : only? members key = some none ↔
    ∀ member ∈ members, member.1 ≠ some key := by
  have hnone : members.filter (fun member => member.1 == some key) = [] ↔
      ∀ member ∈ members, member.1 ≠ some key := by
    simp only [List.filter_eq_nil_iff, beq_iff_eq]
  rw [← hnone, only?]
  split
  · rename_i heq
    exact ⟨fun _ => heq, fun _ => rfl⟩
  · rename_i heq
    rw [heq]
    constructor <;> intro h <;> cases h
  · rename_i hne _
    constructor
    · intro h
      cases h
    · intro h
      exact absurd h hne

theorem only?_eq_some_some {value : Json} : only? members key = some (some value) ↔
    HasOnly members key value := by
  have hsplit {member : Option Text × Json} :
      members.filter (fun member => member.1 == some key) = [member] ↔
        ∃ front back, members = front ++ member :: back ∧ member.1 = some key ∧
          ∀ other ∈ front ++ back, other.1 ≠ some key := by
    simp only [List.filter_eq_cons_iff, List.filter_eq_nil_iff, beq_iff_eq, List.forall_mem_append]
    constructor
    · rintro ⟨front, back, hmembers, hfront, hkey, hback⟩
      exact ⟨front, back, hmembers, hkey, hfront, hback⟩
    · rintro ⟨front, back, hmembers, hkey, hfront, hback⟩
      exact ⟨front, back, hmembers, hfront, hkey, hback⟩
  constructor
  · intro h
    rw [only?] at h
    split at h
    · cases h
    · rename_i member heq
      cases h
      obtain ⟨front, back, hmembers, hkey, hothers⟩ := hsplit.1 heq
      exact ⟨front, back, hkey ▸ hmembers, hothers⟩
    · cases h
  · rintro ⟨front, back, hmembers, hothers⟩
    rw [only?, hsplit.2 ⟨front, back, hmembers, rfl, hothers⟩]

theorem optional?_text_eq_some {field : Option Json} {text : Text} :
    optional? text? field = some (some text) ↔ field = some (.ofText text) := by
  match field with
  | none => simp [optional?]
  | some .null => simp [optional?, ofText]
  | some (.string value) => simp [optional?, text?, ofText]
  | some (.boolean _) => simp [optional?, text?, ofText]
  | some (.number _) => simp [optional?, text?, ofText]
  | some (.array _) => simp [optional?, text?, ofText]
  | some (.object _) => simp [optional?, text?, ofText]

end Json

namespace Operation

theorem ofLabel?_eq_some {text : Text} {operation : Operation} :
    ofLabel? text = some operation ↔ text = operation.label := by
  constructor
  · intro h
    have hlabel := List.find?_some h
    exact (beq_iff_eq.1 hlabel).symm
  · rintro rfl
    cases operation <;> decide

theorem ofJson?_eq_some {name : Json} {operation : Operation} :
    ofJson? name = some operation ↔ operation.Named name := by
  constructor
  · intro h
    obtain ⟨text, htext, hlabel⟩ := Option.bind_eq_some_iff.1 h
    obtain rfl := ofLabel?_eq_some.1 hlabel
    unfold Json.choice? at htext
    split at htext
    · cases htext
      exact .text
    · cases htext
      exact .key
    · cases htext
  · rintro (_ | _)
    · exact ofLabel?_eq_some.2 rfl
    · exact ofLabel?_eq_some.2 rfl

end Operation

namespace Request

variable {language body : Text} {operation : Operation}

theorem ofJson?_of_fields {document : Json} {l b o : Option Json}
    (h : document.fields? fieldNames = some [l, b, o]) :
    ofJson? document = some ⟨some language, some body, operation⟩ ↔
      l = some (.ofText language) ∧ b = some (.ofText body) ∧
        (operation = .tokens ∧ o = none ∨ ∃ name, operation.Named name ∧ o = some name) := by
  simp only [ofJson?, h, Option.bind_eq_bind, Option.bind_some, Option.bind_eq_some_iff]
  cases o with
  | none =>
    simp only [Option.some.injEq, Request.mk.injEq]
    constructor
    · rintro ⟨_, hl, _, hb, rfl, rfl, rfl⟩
      exact ⟨Json.optional?_text_eq_some.1 hl, Json.optional?_text_eq_some.1 hb,
        .inl ⟨rfl, trivial⟩⟩
    · rintro ⟨hl, hb, ⟨rfl, -⟩ | ⟨name, -, hname⟩⟩
      · exact ⟨_, Json.optional?_text_eq_some.2 hl, _, Json.optional?_text_eq_some.2 hb,
          rfl, rfl, rfl⟩
      · cases hname
  | some name =>
    simp only [Option.bind_eq_some_iff, Option.some.injEq, Request.mk.injEq]
    constructor
    · rintro ⟨_, hl, _, hb, _, ho, rfl, rfl, rfl⟩
      exact ⟨Json.optional?_text_eq_some.1 hl, Json.optional?_text_eq_some.1 hb,
        .inr ⟨name, Operation.ofJson?_eq_some.1 ho, rfl⟩⟩
    · rintro ⟨hl, hb, ⟨-, hname⟩ | ⟨_, hnamed, rfl⟩⟩
      · cases hname
      · exact ⟨_, Json.optional?_text_eq_some.2 hl, _, Json.optional?_text_eq_some.2 hb, _,
          Operation.ofJson?_eq_some.2 hnamed, rfl, rfl, rfl⟩

/-- The three fields of a request in an object with no other keys than texts. -/
theorem fields?_object_eq_some {members : List (Option Text × Json)} {l b o : Option Json} :
    (Json.object members).fields? fieldNames = some [l, b, o] ↔
      (∀ member ∈ members, member.1.isSome) ∧ Json.only? members "language".toList = some l ∧
        Json.only? members "body".toList = some b ∧ Json.only? members "op".toList = some o := by
  rw [Json.fields?, fieldNames]
  split
  · rename_i hkeys
    rw [List.all_eq_true] at hkeys
    simp only [List.mapM_cons, List.mapM_nil, Option.bind_eq_bind, Option.bind_eq_some_iff,
      Option.pure_def, Option.some.injEq]
    constructor
    · rintro ⟨_, hl, _, ⟨_, hb, _, ⟨_, ho, _, rfl, rfl⟩, rfl⟩, hfields⟩
      cases hfields
      exact ⟨hkeys, hl, hb, ho⟩
    · rintro ⟨-, hl, hb, ho⟩
      exact ⟨_, hl, _, ⟨_, hb, _, ⟨_, ho, _, rfl, rfl⟩, rfl⟩, rfl⟩
  · rename_i hkeys
    rw [List.all_eq_true] at hkeys
    constructor
    · intro h
      cases h
    · rintro ⟨hall, -⟩
      exact absurd hall hkeys

theorem exists_fields_of_object {members : List (Option Text × Json)}
    {fields : List (Option Json)} (h : (Json.object members).fields? fieldNames = some fields) :
    ∃ l b o, fields = [l, b, o] := by
  rw [Json.fields?, fieldNames] at h
  split at h
  · simp only [List.mapM_cons, List.mapM_nil, Option.bind_eq_bind, Option.bind_eq_some_iff,
      Option.pure_def, Option.some.injEq] at h
    obtain ⟨l, -, _, ⟨b, -, _, ⟨o, -, _, rfl, rfl⟩, rfl⟩, rfl⟩ := h
    exact ⟨l, b, o, rfl⟩
  · cases h

/-- A document that is read as a request with a language and a body asks for it. -/
theorem asked_of_ofJson? {document : Json}
    (h : ofJson? document = some ⟨some language, some body, operation⟩) :
    Asked language body operation document := by
  match document with
  | .array [] =>
    have hfields : (Json.array []).fields? fieldNames = some [none, none, none] := rfl
    obtain ⟨hl, -, -⟩ := (ofJson?_of_fields hfields).1 h
    cases hl
  | .array [l] =>
    have hfields : (Json.array [l]).fields? fieldNames = some [some l, none, none] := rfl
    obtain ⟨-, hb, -⟩ := (ofJson?_of_fields hfields).1 h
    cases hb
  | .array [l, b] =>
    have hfields : (Json.array [l, b]).fields? fieldNames = some [some l, some b, none] := rfl
    obtain ⟨hl, hb, ⟨rfl, -⟩ | ⟨_, -, ho⟩⟩ := (ofJson?_of_fields hfields).1 h
    · cases hl
      cases hb
      exact .pair
    · cases ho
  | .array [l, b, o] =>
    have hfields : (Json.array [l, b, o]).fields? fieldNames = some [some l, some b, some o] := rfl
    obtain ⟨hl, hb, ⟨-, ho⟩ | ⟨name, hnamed, ho⟩⟩ := (ofJson?_of_fields hfields).1 h
    · cases ho
    · cases hl
      cases hb
      cases ho
      exact .triple hnamed
  | .array (l :: b :: o :: more :: rest) =>
    have hfields : (Json.array (l :: b :: o :: more :: rest)).fields? fieldNames = none := by
      rw [Json.fields?, if_neg (by simp [fieldNames])]
    rw [ofJson?, hfields] at h
    cases h
  | .object members =>
    obtain ⟨fields, hfields, -⟩ := Option.bind_eq_some_iff.1 h
    obtain ⟨l, b, o, rfl⟩ := exists_fields_of_object hfields
    obtain ⟨rfl, rfl, ho⟩ := (ofJson?_of_fields hfields).1 h
    obtain ⟨hkeys, hl, hb, hop⟩ := fields?_object_eq_some.1 hfields
    refine .object hkeys (Json.only?_eq_some_some.1 hl) (Json.only?_eq_some_some.1 hb) ?_
    obtain ⟨rfl, rfl⟩ | ⟨name, hnamed, rfl⟩ := ho
    · exact .inl ⟨rfl, Json.only?_eq_some_none.1 hop⟩
    · exact .inr ⟨name, hnamed, Json.only?_eq_some_some.1 hop⟩

theorem ofJson?_of_asked {document : Json} (h : Asked language body operation document) :
    ofJson? document = some ⟨some language, some body, operation⟩ := by
  cases h with
  | pair =>
    have hfields : (Json.array [.ofText language, .ofText body]).fields? fieldNames =
        some [some (.ofText language), some (.ofText body), none] := rfl
    exact (ofJson?_of_fields hfields).2 ⟨rfl, rfl, .inl ⟨rfl, rfl⟩⟩
  | @triple _ name hnamed =>
    have hfields : (Json.array [.ofText language, .ofText body, name]).fields? fieldNames =
        some [some (.ofText language), some (.ofText body), some name] := rfl
    exact (ofJson?_of_fields hfields).2 ⟨rfl, rfl, .inr ⟨name, hnamed, rfl⟩⟩
  | object hkeys hlanguage hbody hoperation =>
    have hl := Json.only?_eq_some_some.2 hlanguage
    have hb := Json.only?_eq_some_some.2 hbody
    obtain ⟨rfl, hnone⟩ | ⟨name, hnamed, hname⟩ := hoperation
    · have hfields := fields?_object_eq_some.2 ⟨hkeys, hl, hb, Json.only?_eq_some_none.2 hnone⟩
      exact (ofJson?_of_fields hfields).2 ⟨rfl, rfl, .inl ⟨rfl, rfl⟩⟩
    · have hfields := fields?_object_eq_some.2 ⟨hkeys, hl, hb, Json.only?_eq_some_some.2 hname⟩
      exact (ofJson?_of_fields hfields).2 ⟨rfl, rfl, .inr ⟨name, hnamed, rfl⟩⟩

end Request

def Json.IsDocument (payload : List UInt8) (document : Json) : Prop :=
  ∃ text : Text, payload = Utf8.encode text ∧ Spells (text.map .char) document.symbols

theorem Json.IsDocument.ofBytes?_eq {payload : List UInt8} {document : Json}
    (h : Json.IsDocument payload document) : Json.ofBytes? payload = some document := by
  obtain ⟨text, rfl, hspells⟩ := h
  rw [Json.ofBytes?, Utf8.chunks_encode]
  exact Json.ofChunks?_eq_some_iff.2 hspells

theorem Request.decode_eq_ok_iff {payload : List UInt8} {r : Request} :
    Request.decode payload = .ok r ↔
      ∃ document : Json, Spells (Utf8.chunks payload) document.symbols ∧
        Request.ofJson? document = some r := by
  have hread : (Json.ofBytes? payload).bind Request.ofJson? = some r ↔
      ∃ document : Json, Spells (Utf8.chunks payload) document.symbols ∧
        Request.ofJson? document = some r := by
    simp only [Option.bind_eq_some_iff, Json.ofBytes?, Json.ofChunks?_eq_some_iff]
  rw [← hread, Request.decode]
  cases (Json.ofBytes? payload).bind Request.ofJson? <;> simp

theorem Request.bodyFor_eq_ok_iff {r : Request} {expected body : Text} :
    r.bodyFor expected = .ok body ↔ ∃ language, r.language = some language ∧
      Text.sameIgnoringAsciiCase language expected ∧ r.body = some body := by
  obtain ⟨language, content, operation⟩ := r
  cases language with
  | none => simp [bodyFor]
  | some language =>
    by_cases hsame : Text.sameIgnoringAsciiCase language expected
    · cases content <;> simp [bodyFor, hsame]
    · simp [bodyFor, hsame]

namespace Tokenizer

/-- Whether a payload is a document that asks for an operation on the tokens of a body, in the
language of the tokenizer. -/
structure IsAsked (t : Tokenizer) (payload : List UInt8) (document : Json) (body : Text)
    (operation : Operation) : Prop where
  spells : Spells (Utf8.chunks payload) document.symbols
  asked : ∃ language, Text.sameIgnoringAsciiCase language t.language ∧
    Request.Asked language body operation document

def serve (t : Tokenizer) (body : Text) (operation : Operation) : Reply :=
  match t.tokenize body with
  | .error e => .refusal (.ofLexicalError e)
  | .ok tokens => replyWith operation tokens

/-- Nothing that is served is refused as a fault of the request. -/
theorem serve_ne (t : Tokenizer) (body : Text) (operation : Operation) (message : Text) :
    t.serve body operation ≠ .refusal ⟨.request, message, none⟩ := by
  unfold serve
  cases t.tokenize body with
  | error e =>
    intro h
    cases h
  | ok tokens => cases operation <;> exact fun h => Reply.noConfusion h

theorem replyTo_of_body {t : Tokenizer} {payload : List UInt8} {r : Request} {body : Text}
    (hdecode : Request.decode payload = .ok r) (hbody : r.bodyFor t.language = .ok body) :
    t.replyTo payload = t.serve body r.operation := by
  rw [replyTo, hdecode]
  simp only [answer, hbody]
  rfl

/-- A payload is refused for itself, or the body of the request in it is served. -/
theorem replyTo_cases (t : Tokenizer) (payload : List UInt8) :
    (∃ e, t.replyTo payload = .refusal (.ofRequestFault e)) ∨
      ∃ r body, Request.decode payload = .ok r ∧ r.bodyFor t.language = .ok body ∧
        t.replyTo payload = t.serve body r.operation := by
  cases hdecode : Request.decode payload with
  | error e => exact .inl ⟨e, by rw [replyTo, hdecode]⟩
  | ok r =>
    cases hbody : r.bodyFor t.language with
    | error e => exact .inl ⟨e, by rw [replyTo, hdecode]; simp only [answer, hbody]⟩
    | ok body => exact .inr ⟨r, body, rfl, hbody, replyTo_of_body hdecode hbody⟩

/-- A document that asks is served. -/
theorem replyTo_of_asked {t : Tokenizer} {payload : List UInt8} {document : Json} {body : Text}
    {operation : Operation} (h : t.IsAsked payload document body operation) :
    t.replyTo payload = t.serve body operation := by
  obtain ⟨hspells, language, hlanguage, hasked⟩ := h
  have hdecode := Request.decode_eq_ok_iff.2
    ⟨document, hspells, Request.ofJson?_of_asked hasked⟩
  exact replyTo_of_body hdecode (Request.bodyFor_eq_ok_iff.2 ⟨language, rfl, hlanguage, rfl⟩)

/-- A payload that is not refused for itself is a document that asks. -/
theorem refused_or_asked (t : Tokenizer) (payload : List UInt8) :
    (∃ e, t.replyTo payload = .refusal (.ofRequestFault e)) ∨
      ∃ document body operation, t.IsAsked payload document body operation := by
  obtain hrefused | ⟨r, body, hdecode, hbody, -⟩ := replyTo_cases t payload
  · exact .inl hrefused
  · obtain ⟨document, hspells, hread⟩ := Request.decode_eq_ok_iff.1 hdecode
    obtain ⟨language, hlanguage, hsame, hcontent⟩ := Request.bodyFor_eq_ok_iff.1 hbody
    obtain ⟨_, _, operation⟩ := r
    subst hlanguage hcontent
    exact .inr ⟨document, body, operation, hspells, language, hsame,
      Request.asked_of_ofJson? hread⟩

/-- A payload that is no object of well-formed text is refused as a fault of the request, without a
place, unless it asks all the same. It then is an array, or it has bytes that are no text in some
member that nobody reads, and it is served like any other request. -/
theorem refused_iff_not_asked (t : Tokenizer) (payload : List UInt8)
    (h : ∀ members, ¬ Json.IsDocument payload (.object members)) :
    ((∃ message, t.replyTo payload = .refusal ⟨.request, message, none⟩) ↔
      ¬ ∃ document body operation, t.IsAsked payload document body operation ∧
        ((∃ items, document = .array items) ∨
          (∃ members, document = .object members) ∧ ∀ text, payload ≠ Utf8.encode text)) ∧
    ∀ document body operation, t.IsAsked payload document body operation →
      t.replyTo payload = t.serve body operation := by
  refine ⟨⟨?_, fun hnone => ?_⟩, fun _ _ _ => replyTo_of_asked⟩
  · rintro ⟨message, hreply⟩ ⟨document, body, operation, hasked, -⟩
    rw [replyTo_of_asked hasked] at hreply
    exact serve_ne t body operation message hreply
  · obtain ⟨e, hreply⟩ | ⟨document, body, operation, hasked⟩ := refused_or_asked t payload
    · exact ⟨e.message, hreply⟩
    · refine absurd ⟨document, body, operation, hasked, ?_⟩ hnone
      obtain ⟨hspells, language, -, hdocument⟩ := hasked
      cases hdocument with
      | pair => exact .inl ⟨_, rfl⟩
      | triple _ => exact .inl ⟨_, rfl⟩
      | @object _ members _ _ _ _ =>
        -- If the payload were text, it would be the well-formed object that it is not.
        refine .inr ⟨⟨members, rfl⟩, ?_⟩
        rintro text rfl
        rw [Utf8.chunks_encode] at hspells
        exact h members ⟨text, rfl, hspells⟩

/-- Two arrays: one asks and is served, the other lacks a body and is refused. -/
theorem refused_iff_not_asked_of_arrays :
    let whole := Utf8.encode "[\"Python\", \"x\"]".toList
    let short := Utf8.encode "[\"python\"]".toList
    (∀ message, python.replyTo whole ≠ .refusal ⟨.request, message, none⟩) ∧
      ∃ message, python.replyTo short = .refusal ⟨.request, message, none⟩ := by
  intro whole short
  have hwhole : Json.ofBytes? whole = some (.array [.ofText "Python".toList, .ofText ['x']]) := by
    rfl
  have hshort : Json.ofBytes? short = some (.array [.ofText "python".toList]) := by rfl
  have hno {payload : List UInt8} {items : List Json}
      (hread : Json.ofBytes? payload = some (.array items)) (members : List (Option Text × Json)) :
      ¬ Json.IsDocument payload (.object members) := by
    intro hobject
    cases hread.symm.trans hobject.ofBytes?_eq
  have hasked : python.IsAsked whole (.array [.ofText "Python".toList, .ofText ['x']]) ['x']
      .tokens := ⟨Json.ofChunks?_eq_some_iff.1 hwhole, "Python".toList, by decide, .pair⟩
  constructor
  · intro message hreply
    exact (refused_iff_not_asked python whole (hno hwhole)).1.1 ⟨message, hreply⟩
      ⟨_, _, _, hasked, .inl ⟨_, rfl⟩⟩
  · refine (refused_iff_not_asked python short (hno hshort)).1.2 ?_
    rintro ⟨document, body, operation, ⟨hspells, language, -, hdocument⟩, -⟩
    cases (Json.ofChunks?_eq_some_iff.2 hspells).symm.trans hshort
    cases hdocument

/-- An array of a language and a text is no object, and yet it is served. -/
theorem exists_array_served :
    ∃ payload, (∀ members, ¬ Json.IsDocument payload (.object members)) ∧
      ∀ message, python.replyTo payload ≠ .refusal ⟨.request, message, none⟩ := by
  refine ⟨Utf8.encode "[\"python\",\"x\"]".toList, ?_, ?_⟩
  · intro members hobject
    have hread : Json.ofBytes? (Utf8.encode "[\"python\",\"x\"]".toList) =
      some (.array [.ofText "python".toList, .ofText ['x']]) := by rfl
    cases hread.symm.trans hobject.ofBytes?_eq
  · have hreply : python.replyTo (Utf8.encode "[\"python\",\"x\"]".toList) = .tokens [
        ⟨.name, ['x'], ⟨1, 0⟩, ⟨1, 1⟩, some ['x']⟩, ⟨.newline, [], ⟨1, 1⟩, ⟨1, 2⟩, none⟩,
        ⟨.endMarker, [], ⟨2, 0⟩, ⟨2, 0⟩, none⟩] := by rfl
    intro message h
    rw [hreply] at h
    cases h

end Tokenizer

end SourceTokens
