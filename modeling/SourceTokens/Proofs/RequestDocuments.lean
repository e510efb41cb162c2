import Mathlib.Data.List.Perm.Basic
import Mathlib.Logic.Relation
import SourceTokens.Proofs.Requests

/-!
The documents of one request. What a document is read as depends on what stands under three keys, so
neither the order of the members nor members under other keys matter. Nothing at all and a null say
the same of a text that is absent, and an operation that is left out is the first one. A key that
occurs twice and a value that is none of its field are refused.
-/

namespace SourceTokens

/-- The changes to the members of a document that leave the request as it is. -/
inductive Request.Edit (r : Request) :
    List (Option Text × Json) → List (Option Text × Json) → Prop
  | reorder {members other : List (Option Text × Json)} (h : members.Perm other) :
      Edit r members other
  /-- A null is written for a text that is absent. -/
  | null {members : List (Option Text × Json)} (key : Text)
      (habsent : key = "language".toList ∧ r.language = none ∨
        key = "body".toList ∧ r.body = none)
      (hnone : ∀ member ∈ members, member.1 ≠ some key) :
      Edit r members ((some key, .null) :: members)
  /-- The first operation is left out. -/
  | leaveOut {members : List (Option Text × Json)} (hfirst : r.operation = .tokens) :
      Edit r ((some "op".toList, r.operation.toJson) :: members) members
  /-- A member is put in that is none of the fields. -/
  | insert {members : List (Option Text × Json)} (key : Text) (value : Json)
      (hkey : key ∉ Request.fieldNames) : Edit r members ((some key, value) :: members)

/-- What keeps the members of a document from being those of a request. -/
inductive Request.Refused (members : List (Option Text × Json)) : Prop
  | repeated (key : Text) (hkey : key ∈ Request.fieldNames)
      (front middle back : List (Option Text × Json)) (value other : Json)
      (hmembers : members = front ++ (some key, value) :: (middle ++ (some key, other) :: back))
  /-- A text is expected where there is neither a text that can be read nor a null. -/
  | notText (key : Text) (hkey : key = "language".toList ∨ key = "body".toList) (value : Json)
      (hmem : (some key, value) ∈ members) (hnull : value ≠ .null) (htext : value.text? = none)
  | unknownOperation (value : Json) (hmem : (some "op".toList, value) ∈ members)
      (hnone : ∀ operation : Operation, ¬ operation.Named value)

namespace Json

variable {members other : List (Option Text × Json)} {key : Text}

/-- What is found under a key does not depend on the order of the members. -/
theorem only?_of_perm (h : members.Perm other) (key : Text) :
    only? members key = only? other key := by
  have hfilter := h.filter fun member => member.1 == some key
  unfold only?
  generalize members.filter _ = found at hfilter ⊢
  generalize other.filter _ = found' at hfilter ⊢
  match found, found', hfilter with
  | [], found', hfilter => rw [List.nil_perm.1 hfilter]
  | [member], found', hfilter => rw [List.singleton_perm.1 hfilter]
  | first :: second :: rest, [], hfilter => exact absurd hfilter.length_eq (by simp)
  | first :: second :: rest, [member], hfilter => exact absurd hfilter.length_eq (by simp)
  | first :: second :: rest, first' :: second' :: rest', hfilter => rfl

theorem only?_cons_of_ne {name : Option Text} {value : Json} (h : name ≠ some key) :
    only? ((name, value) :: members) key = only? members key := by
  rw [only?, only?, List.filter_cons_of_neg (by simpa using h)]

theorem only?_cons_of_eq {value : Json} (h : ∀ member ∈ members, member.1 ≠ some key) :
    only? ((some key, value) :: members) key = some (some value) :=
  only?_eq_some_some.2 ⟨[], members, rfl, h⟩

/-- A key under which a value is found occurs once. -/
theorem ne_of_only?_cons {value : Json} {field : Option Json}
    (h : only? ((some key, value) :: members) key = some field) :
    ∀ member ∈ members, member.1 ≠ some key := by
  rw [only?, List.filter_cons_of_pos (by simp)] at h
  cases hfound : members.filter fun member => member.1 == some key with
  | nil => simpa using List.filter_eq_nil_iff.1 hfound
  | cons found more =>
    rw [hfound] at h
    cases h

/-- Nothing is found under a key that occurs twice. -/
theorem only?_of_repeated (front middle back : List (Option Text × Json)) (key : Text)
    (value value' : Json) :
    only? (front ++ (some key, value) :: (middle ++ (some key, value') :: back)) key = none := by
  have hsecond : (front ++ (middle ++ (some key, value') :: back)).Perm
      ((some key, value') :: (front ++ (middle ++ back))) := by
    rw [← List.append_assoc, ← List.append_assoc]
    exact List.perm_middle
  rw [only?_of_perm (List.perm_middle.trans (hsecond.cons _)), only?,
    List.filter_cons_of_pos (by simp), List.filter_cons_of_pos (by simp)]

/-- What is found under a key is the value of any member with that key. -/
theorem eq_of_only? {value : Json} {field : Option Json}
    (h : only? members key = some field) (hmem : (some key, value) ∈ members) :
    field = some value := by
  cases field with
  | none => exact absurd rfl (only?_eq_some_none.1 h _ hmem)
  | some found =>
    obtain ⟨front, back, rfl, hothers⟩ := only?_eq_some_some.1 h
    rcases List.mem_cons.1 (List.perm_middle.mem_iff.1 hmem) with heq | hmem
    · cases heq
      rfl
    · exact absurd rfl (hothers _ hmem)

theorem optional?_map (text : Option Text) : optional? text? (text.map .ofText) = some text := by
  cases text <;> rfl

theorem optional?_of_notText {value : Json} (hnull : value ≠ .null) (htext : value.text? = none) :
    optional? text? (some value) = none := by
  cases value with
  | null => exact absurd rfl hnull
  | _ => simp only [optional?, htext, Option.map_none]

end Json

namespace Request

open Json (only? optional? text?)

structure HeldBy (r : Request) (members : List (Option Text × Json)) : Prop where
  keys : ∀ member ∈ members, member.1.isSome
  language : ∃ field, only? members "language".toList = some field ∧
    optional? text? field = some r.language
  body : ∃ field, only? members "body".toList = some field ∧ optional? text? field = some r.body
  operation : only? members "op".toList = some none ∧ r.operation = .tokens ∨
    ∃ name, only? members "op".toList = some (some name) ∧ r.operation.Named name

variable {r : Request} {members other : List (Option Text × Json)}

/-- An object is read as the request that its members hold. -/
theorem ofJson?_object_iff : ofJson? (.object members) = some r ↔ r.HeldBy members := by
  constructor
  · intro h
    obtain ⟨fields, hfields, hread⟩ := Option.bind_eq_some_iff.1 h
    obtain ⟨l, b, o, rfl⟩ := exists_fields_of_object hfields
    obtain ⟨hkeys, hl, hb, ho⟩ := fields?_object_eq_some.1 hfields
    cases o with
    | none =>
      simp only [Option.bind_eq_bind, Option.bind_eq_some_iff, Option.some.injEq] at hread
      obtain ⟨language, hlanguage, body, hbody, -, rfl, rfl⟩ := hread
      exact ⟨hkeys, ⟨l, hl, hlanguage⟩, ⟨b, hb, hbody⟩, .inl ⟨ho, rfl⟩⟩
    | some name =>
      simp only [Option.bind_eq_bind, Option.bind_eq_some_iff, Option.some.injEq] at hread
      obtain ⟨language, hlanguage, body, hbody, operation, hoperation, rfl⟩ := hread
      have hnamed := Operation.ofJson?_eq_some.1 hoperation
      exact ⟨hkeys, ⟨l, hl, hlanguage⟩, ⟨b, hb, hbody⟩, .inr ⟨name, ho, hnamed⟩⟩
  · rintro ⟨hkeys, ⟨l, hl, hlanguage⟩, ⟨b, hb, hbody⟩, hoperation⟩
    rcases hoperation with ⟨ho, hfirst⟩ | ⟨name, ho, hnamed⟩
    · have hfields := fields?_object_eq_some.2 ⟨hkeys, hl, hb, ho⟩
      simp only [ofJson?, hfields, Option.bind_eq_bind, Option.bind_some, hlanguage, hbody,
        ← hfirst]
    · have hfields := fields?_object_eq_some.2 ⟨hkeys, hl, hb, ho⟩
      simp only [ofJson?, hfields, Option.bind_eq_bind, Option.bind_some, hlanguage, hbody,
        Operation.ofJson?_eq_some.2 hnamed]

theorem ofJson?_toJson (r : Request) : ofJson? r.toJson = some r := by
  have hfields : r.toJson.fields? fieldNames =
      some [r.language.map .ofText, r.body.map .ofText, some r.operation.toJson] :=
    Json.fields?_record (show fieldNames.Nodup by decide)
  simp only [ofJson?, hfields, Option.bind_eq_bind, Option.bind_some, Json.optional?_map,
    Operation.ofJson?_eq_some.2 .text, Operation.toJson]

/-- A member in front under another key than a field leaves the request as it is. -/
theorem HeldBy.cons (h : r.HeldBy members) {key : Text} {value : Json} (hkey : key ∉ fieldNames) :
    r.HeldBy ((some key, value) :: members) := by
  have hother : ∀ name ∈ fieldNames,
      only? ((some key, value) :: members) name = only? members name := by
    intro name hname
    refine Json.only?_cons_of_ne ?_
    rintro ⟨⟩
    exact hkey hname
  refine ⟨List.forall_mem_cons.2 ⟨rfl, h.keys⟩, ?_, ?_, ?_⟩
  · rw [hother _ (by simp [fieldNames])]
    exact h.language
  · rw [hother _ (by simp [fieldNames])]
    exact h.body
  · rw [hother _ (by simp [fieldNames])]
    exact h.operation

theorem HeldBy.edit (h : r.HeldBy members) (hedit : r.Edit members other) : r.HeldBy other := by
  cases hedit with
  | reorder hperm =>
    obtain ⟨hkeys, hlanguage, hbody, hoperation⟩ := h
    simp only [Json.only?_of_perm hperm] at hlanguage hbody hoperation
    exact ⟨fun member hmem => hkeys member (hperm.mem_iff.2 hmem), hlanguage, hbody, hoperation⟩
  | null key habsent hnone =>
    have hkeys : ∀ member ∈ (some key, .null) :: members, member.1.isSome :=
      List.forall_mem_cons.2 ⟨rfl, h.keys⟩
    rcases habsent with ⟨rfl, habsent⟩ | ⟨rfl, habsent⟩
    · refine ⟨hkeys, ⟨_, Json.only?_cons_of_eq hnone, by rw [habsent]; rfl⟩, ?_, ?_⟩
      · rw [Json.only?_cons_of_ne (by decide)]
        exact h.body
      · rw [Json.only?_cons_of_ne (by decide)]
        exact h.operation
    · refine ⟨hkeys, ?_, ⟨_, Json.only?_cons_of_eq hnone, by rw [habsent]; rfl⟩, ?_⟩
      · rw [Json.only?_cons_of_ne (by decide)]
        exact h.language
      · rw [Json.only?_cons_of_ne (by decide)]
        exact h.operation
  | leaveOut hfirst =>
    obtain ⟨hkeys, hlanguage, hbody, hoperation⟩ := h
    rw [Json.only?_cons_of_ne (by decide)] at hlanguage hbody
    refine ⟨(List.forall_mem_cons.1 hkeys).2, hlanguage, hbody, .inl ⟨?_, hfirst⟩⟩
    rcases hoperation with ⟨hnone, -⟩ | ⟨name, hname, -⟩
    · exact absurd rfl (Json.only?_eq_some_none.1 hnone _ (List.mem_cons_self ..))
    · exact Json.only?_eq_some_none.2 (Json.ne_of_only?_cons hname)
  | insert key value hkey => exact h.cons hkey

theorem HeldBy.edits (h : r.HeldBy members) (hedits : Relation.ReflTransGen r.Edit members other) :
    r.HeldBy other := by
  induction hedits with
  | refl => exact h
  | tail _ hedit ih => exact ih.edit hedit

theorem not_heldBy_of_refused (h : Refused members) : ¬ r.HeldBy members := by
  rintro ⟨hkeys, ⟨l, hl, hlanguage⟩, ⟨b, hb, hbody⟩, hoperation⟩
  cases h with
  | repeated key hkey front middle back value other hmembers =>
    have hnone := Json.only?_of_repeated front middle back key value other
    rw [← hmembers] at hnone
    simp only [fieldNames, List.mem_cons, List.not_mem_nil, or_false] at hkey
    rcases hkey with rfl | rfl | rfl
    · rw [hnone] at hl
      cases hl
    · rw [hnone] at hb
      cases hb
    · rw [hnone] at hoperation
      simp at hoperation
  | notText key hkey value hmem hnull htext =>
    have hunread := Json.optional?_of_notText hnull htext
    rcases hkey with rfl | rfl
    · rw [Json.eq_of_only? hl hmem, hunread] at hlanguage
      cases hlanguage
    · rw [Json.eq_of_only? hb hmem, hunread] at hbody
      cases hbody
  | unknownOperation value hmem hnone =>
    rcases hoperation with ⟨habsent, -⟩ | ⟨name, hname, hnamed⟩
    · cases Json.eq_of_only? habsent hmem
    · cases Json.eq_of_only? hname hmem
      exact hnone r.operation hnamed

theorem decode_of_document {payload : List UInt8} {document : Json}
    (h : Json.IsDocument payload document) :
    decode payload = match ofJson? document with
      | some r => .ok r
      | none => .error .malformed := by
  cases hread : ofJson? document <;> simp only [decode, h.ofBytes?_eq, Option.bind_some, hread]

end Request

/-- The documents of a request. The text that it is written as is read as the request again. So is
every document that the changes lead to from that one, however it is written, and a document with a
field that is repeated, a text that is none or an unknown operation is refused. -/
theorem Request.decode_documents (r : Request) :
    Request.decode (Utf8.encode r.encode) = .ok r ∧
    (∀ given members payload, r.toJson = .object given →
      Relation.ReflTransGen r.Edit given members → Json.IsDocument payload (.object members) →
        Request.decode payload = .ok r) ∧
    ∀ members payload, Request.Refused members → Json.IsDocument payload (.object members) →
      Request.decode payload = .error .malformed := by
  refine ⟨?_, fun given members payload hgiven hedits hdocument => ?_,
    fun members payload hrefused hdocument => ?_⟩
  · rw [decode, encode, Json.ofBytes?_encode_print, Option.bind_some, ofJson?_toJson]
  · have hheld : r.HeldBy given := ofJson?_object_iff.1 (hgiven ▸ r.ofJson?_toJson)
    rw [decode_of_document hdocument, ofJson?_object_iff.2 (hheld.edits hedits)]
  · have hnone : ofJson? (.object members) = none := by
      rw [Option.eq_none_iff_forall_ne_some]
      exact fun other hread => not_heldBy_of_refused hrefused (ofJson?_object_iff.1 hread)
    rw [decode_of_document hdocument, hnone]

/-- A null, a member that holds fields of its own and another order change nothing, as an operation
that is left out does not. A null for an operation is refused. -/
theorem Request.decode_documents_of_null :
    let payload := Utf8.encode
      "\x7b\"tag\": [\x7b\"op\": 1e999\x7d], \"language\": null, \"body\": \"\\u0078\"\x7d".toList
    let refused := Utf8.encode "\x7b\"op\":null\x7d".toList
    Request.decode payload = .ok ⟨none, some ['x'], .tokens⟩ ∧
      Request.decode refused = .error .malformed := by
  intro payload refused
  let r : Request := ⟨none, some ['x'], .tokens⟩
  let tag : Json := .array [.object [(some "op".toList, .number ⟨false, 1, [], some 999⟩)]]
  let members : List (Option Text × Json) :=
    [(some "tag".toList, tag), (some "language".toList, .null), (some "body".toList, .ofText ['x'])]
  have hdocument : Json.IsDocument payload (.object members) :=
    ⟨_, rfl, Json.ofChunks?_eq_some_iff.1 (by rfl)⟩
  have hrefused : Json.IsDocument refused (.object [(some "op".toList, .null)]) :=
    ⟨_, rfl, Json.ofChunks?_eq_some_iff.1 (by rfl)⟩
  constructor
  · have hedits : Relation.ReflTransGen r.Edit
        [(some "body".toList, .ofText ['x']), (some "op".toList, r.operation.toJson)] members :=
      (((Relation.ReflTransGen.single (.reorder (List.Perm.swap ..))).tail (.leaveOut rfl)).tail
        (.null "language".toList (.inl ⟨rfl, rfl⟩) (by decide))).tail
          (.insert "tag".toList tag (by decide))
    exact (Request.decode_documents r).2.1 _ _ payload rfl hedits hdocument
  · exact (Request.decode_documents r).2.2 _ refused
      (.unknownOperation .null (List.mem_singleton.2 rfl) fun operation hnamed => by cases hnamed)
      hrefused

end SourceTokens
