import SourceTokens.Json.Reader
import SourceTokens.Proofs.JsonNumbers

/-!
How symbols are spelled. A string spells its items between quotes, where bytes that encode no
character may stand too; any other symbol is a mark or a bare word. A text spells a list of symbols
one after the other, with spaces anywhere between them. The reader goes through a text in this way:
it takes the symbols that the text spells, and it takes no other text.
-/

namespace SourceTokens.Json

open Utf8 (Chunk)

namespace Item

inductive Spelled : List Chunk → Item → Prop
  | char {c : Char} (hcontrol : 0x20 ≤ c.toNat) (hquote : c ≠ '"') (hescape : c ≠ '\\') :
      Spelled [.char c] (.char c)
  | escape {letter c : Char} (h : ofEscape? letter = some c) :
      Spelled [.char '\\', .char letter] (.char c)
  | unit {a b c d : Char} {w x y z : Nat} (ha : hexValue? a = some w) (hb : hexValue? b = some x)
      (hc : hexValue? c = some y) (hd : hexValue? d = some z) :
      Spelled [.char '\\', .char 'u', .char a, .char b, .char c, .char d]
        (.unit (((w * 16 + x) * 16 + y) * 16 + z))
  | illFormed (bytes : List UInt8) : Spelled [.illFormed bytes] .illFormed

inductive SpelledAll : List Chunk → List Item → Prop
  | nil : SpelledAll [] []
  | cons {part rest : List Chunk} {item : Item} {items : List Item} (h : Spelled part item)
      (hrest : SpelledAll rest items) : SpelledAll (part ++ rest) (item :: items)

/-- An item is spelled by one chunk or more. -/
theorem Spelled.length_pos {part : List Chunk} {item : Item} (h : Spelled part item) :
    0 < part.length := by
  cases h <;> exact Nat.succ_pos _

end Item

inductive WordSpelled : Text → Json → Prop
  | null : WordSpelled "null".toList .null
  | true : WordSpelled "true".toList (.boolean true)
  | false : WordSpelled "false".toList (.boolean false)
  | number {text : Text} {n : Number} (h : Number.Spelled text n) : WordSpelled text (.number n)

theorem WordSpelled.exists_cons {word : Text} {value : Json} (h : WordSpelled word value) :
    ∃ c rest, word = c :: rest := by
  cases h with
  | null => exact ⟨_, _, rfl⟩
  | true => exact ⟨_, _, rfl⟩
  | false => exact ⟨_, _, rfl⟩
  | number h =>
    obtain ⟨c, rest, rfl, -⟩ := h.exists_cons
    exact ⟨c, rest, rfl⟩

namespace Reader

theorem wordValue?_eq_some_iff {word : Text} {value : Json} :
    wordValue? word = some value ↔ WordSpelled word value := by
  constructor
  · intro h
    unfold wordValue? at h
    split at h
    · rename_i hnull
      cases h
      exact hnull ▸ .null
    · split at h
      · rename_i htrue
        cases h
        exact htrue ▸ .true
      · split at h
        · rename_i hfalse
          cases h
          exact hfalse ▸ .false
        · obtain ⟨n, hn, rfl⟩ := Option.map_eq_some_iff.1 h
          exact .number (Number.read?_eq_some_iff.1 hn)
  · rintro (_ | _ | _ | ⟨h⟩)
    · rfl
    · rfl
    · rfl
    · obtain ⟨c, rest, rfl, hc⟩ := h.exists_cons
      have hne (name : Text) (hname : name.head?.any (fun d => d == '-' || d.isDigit) = false) :
          c :: rest ≠ name := by
        rintro rfl
        rw [List.head?_cons, Option.any_some, Bool.or_eq_false_iff, beq_eq_false_iff_ne] at hname
        simp [hname] at hc
      rw [wordValue?, if_neg (hne _ rfl), if_neg (hne _ rfl), if_neg (hne _ rfl),
        Number.read?_eq_some_iff.2 h]
      rfl

inductive Symbol.Spelled : List Chunk → Symbol → Prop
  | openArray : Symbol.Spelled [.char '['] .openArray
  | closeArray : Symbol.Spelled [.char ']'] .closeArray
  | openObject : Symbol.Spelled [.char '\x7b'] .openObject
  | closeObject : Symbol.Spelled [.char '\x7d'] .closeObject
  | comma : Symbol.Spelled [.char ','] .comma
  | colon : Symbol.Spelled [.char ':'] .colon
  | string {body : List Chunk} {items : List Item} (h : Item.SpelledAll body items) :
      Symbol.Spelled (.char '"' :: (body ++ [.char '"'])) (.string (Item.text? items))
  | word {text : Text} {value : Json} (h : WordSpelled text value) :
      Symbol.Spelled (text.map .char) (.plain value)

/-- The chunks that spell symbols one after the other, with spaces between them. -/
inductive Spells : List Chunk → List Symbol → Prop
  | nil : Spells [] []
  | space {c : Char} {rest : List Chunk} {symbols : List Symbol} (hc : isSpace c)
      (hrest : Spells rest symbols) : Spells (.char c :: rest) symbols
  | symbol {part rest : List Chunk} {symbol : Symbol} {symbols : List Symbol}
      (h : symbol.Spelled part) (hrest : Spells rest symbols) :
      Spells (part ++ rest) (symbol :: symbols)

def readFrom (s : State) (chunks : List Chunk) : Option Json := (run s chunks).bind finish?

theorem readFrom_cons (s : State) (chunk : Chunk) (rest : List Chunk) :
    readFrom s (chunk :: rest) = (step s chunk).bind fun next => readFrom next rest := by
  rw [readFrom, run]
  cases step s chunk <;> rfl

section Strings

variable (e : Expected) (read : List Item)

theorem readFrom_string_cons (chunk : Chunk) (rest : List Chunk) :
    readFrom ⟨.string read, e⟩ (chunk :: rest) =
      (stepString read e chunk).bind fun next => readFrom next rest :=
  readFrom_cons _ _ _

theorem readFrom_escape_cons (c : Char) (rest : List Chunk) :
    readFrom ⟨.escape read, e⟩ (.char c :: rest) =
      (stepEscape read e c).bind fun next => readFrom next rest :=
  readFrom_cons _ _ _

def afterDigit (owed code : Nat) : State :=
  match owed with
  | 0 => ⟨.string (.unit code :: read), e⟩
  | n + 1 => ⟨.unit read n code, e⟩

theorem readFrom_unit_cons (owed code : Nat) (c : Char) (rest : List Chunk) :
    readFrom ⟨.unit read owed code, e⟩ (.char c :: rest) =
      (Item.hexValue? c).bind fun v => readFrom (afterDigit e read owed (code * 16 + v)) rest := by
  rw [readFrom_cons]
  change (stepUnit read owed code e c).bind _ = _
  unfold stepUnit
  cases Item.hexValue? c with
  | none => rfl
  | some v => cases owed <;> rfl

/-- The reader goes through the spelling of an item. -/
theorem readFrom_item {part : List Chunk} {item : Item} (h : Item.Spelled part item)
    (rest : List Chunk) :
    readFrom ⟨.string read, e⟩ (part ++ rest) = readFrom ⟨.string (item :: read), e⟩ rest := by
  cases h with
  | @char c hcontrol hquote hescape =>
    rw [List.singleton_append, readFrom_string_cons, stepString, if_neg hquote, if_neg hescape,
      if_neg (Nat.not_lt.2 hcontrol), Option.bind_some]
  | illFormed bytes => rfl
  | @escape letter c h =>
    have hletter : letter ≠ 'u' := by
      rintro rfl
      cases h
    rw [List.cons_append, List.singleton_append, readFrom_string_cons]
    change readFrom ⟨.escape read, e⟩ _ = _
    rw [readFrom_escape_cons, stepEscape, if_neg hletter, h]
    rfl
  | @unit a b c d w x y z ha hb hc hd =>
    change readFrom ⟨.unit read 3 0, e⟩ (.char a :: .char b :: .char c :: .char d :: rest) = _
    rw [readFrom_unit_cons, ha, Option.bind_some, afterDigit, readFrom_unit_cons, hb,
      Option.bind_some, afterDigit, readFrom_unit_cons, hc, Option.bind_some, afterDigit,
      readFrom_unit_cons, hd, Option.bind_some, afterDigit, Nat.zero_mul, Nat.zero_add]

theorem readFrom_items {body : List Chunk} {items : List Item} (h : Item.SpelledAll body items)
    (rest : List Chunk) : readFrom ⟨.string read, e⟩ (body ++ rest) =
      readFrom ⟨.string (items.reverse ++ read), e⟩ rest := by
  induction h generalizing read with
  | nil => rfl
  | cons h hrest ih =>
    rw [List.append_assoc, readFrom_item e read h, ih, List.reverse_cons, List.append_assoc,
      List.singleton_append]

/-- An escaped code unit goes on with a hexadecimal digit. -/
theorem digit_of_readFrom {owed code : Nat} {chunks : List Chunk} {d : Json}
    (h : readFrom ⟨.unit read owed code, e⟩ chunks = some d) :
    ∃ c v rest, chunks = .char c :: rest ∧ Item.hexValue? c = some v ∧
      readFrom (afterDigit e read owed (code * 16 + v)) rest = some d := by
  match chunks with
  | [] => cases h
  | .illFormed _ :: _ => cases h
  | .char c :: rest =>
    rw [readFrom_unit_cons] at h
    obtain ⟨v, hv, hrest⟩ := Option.bind_eq_some_iff.1 h
    exact ⟨c, v, rest, rfl, hv, hrest⟩

/-- Four digits make a code unit. -/
theorem unit_of_readFrom {chunks : List Chunk} {d : Json}
    (h : readFrom ⟨.unit read 3 0, e⟩ chunks = some d) :
    ∃ part rest item, Item.Spelled (.char '\\' :: .char 'u' :: part) item ∧
      chunks = part ++ rest ∧ readFrom ⟨.string (item :: read), e⟩ rest = some d := by
  obtain ⟨c₁, v₁, rest, rfl, hv₁, h⟩ := digit_of_readFrom e read h
  obtain ⟨c₂, v₂, rest, rfl, hv₂, h⟩ := digit_of_readFrom e read h
  obtain ⟨c₃, v₃, rest, rfl, hv₃, h⟩ := digit_of_readFrom e read h
  obtain ⟨c₄, v₄, rest, rfl, hv₄, h⟩ := digit_of_readFrom e read h
  rw [Nat.zero_mul, Nat.zero_add] at h
  exact ⟨[.char c₁, .char c₂, .char c₃, .char c₄], rest, _, .unit hv₁ hv₂ hv₃ hv₄, rfl, h⟩

/-- What stands behind a backslash makes an item together with it. -/
theorem escape_of_readFrom {chunks : List Chunk} {d : Json}
    (h : readFrom ⟨.escape read, e⟩ chunks = some d) :
    ∃ part rest item, Item.Spelled (.char '\\' :: part) item ∧ chunks = part ++ rest ∧
      readFrom ⟨.string (item :: read), e⟩ rest = some d := by
  match chunks with
  | [] => cases h
  | .illFormed _ :: _ => cases h
  | .char c :: rest =>
    rw [readFrom_escape_cons, stepEscape] at h
    split at h
    · rename_i hunit
      subst hunit
      obtain ⟨part, later, item, hitem, rfl, hlater⟩ := unit_of_readFrom e read h
      exact ⟨.char 'u' :: part, later, item, hitem, rfl, hlater⟩
    · obtain ⟨next, hnext, hrest⟩ := Option.bind_eq_some_iff.1 h
      obtain ⟨escaped, hescaped, rfl⟩ := Option.map_eq_some_iff.1 hnext
      exact ⟨[.char c], rest, .char escaped, .escape hescaped, rfl, hrest⟩

/-- A string that is read to its end goes on with its quote or with one more item. -/
theorem item_of_readFrom {chunks : List Chunk} {d : Json}
    (h : readFrom ⟨.string read, e⟩ chunks = some d) :
    (∃ rest next, chunks = .char '"' :: rest ∧
      accept e (.string (Item.text? read.reverse)) = some next ∧
      readFrom ⟨.nothing, next⟩ rest = some d) ∨
    ∃ part rest item, Item.Spelled part item ∧ chunks = part ++ rest ∧
      readFrom ⟨.string (item :: read), e⟩ rest = some d := by
  match chunks with
  | [] => cases h
  | .illFormed bytes :: rest => exact .inr ⟨_, rest, _, .illFormed bytes, rfl, h⟩
  | .char c :: rest =>
    rw [readFrom_string_cons, stepString] at h
    split at h
    · rename_i hquote
      subst hquote
      obtain ⟨s, hs, hrest⟩ := Option.bind_eq_some_iff.1 h
      obtain ⟨next, hnext, rfl⟩ := Option.map_eq_some_iff.1 hs
      exact .inl ⟨rest, next, rfl, hnext, hrest⟩
    · rename_i hquote
      split at h
      · rename_i hescape
        subst hescape
        obtain ⟨part, later, item, hitem, rfl, hlater⟩ := escape_of_readFrom e read h
        exact .inr ⟨.char '\\' :: part, later, item, hitem, rfl, hlater⟩
      · rename_i hescape
        split at h
        · cases h
        · rename_i hcontrol
          exact .inr ⟨_, rest, _, .char (Nat.not_lt.1 hcontrol) hquote hescape, rfl, h⟩

end Strings

/-- A string that is read to its end spells its items up to its quote. -/
theorem items_of_readFrom {e : Expected} {read : List Item} {chunks : List Chunk} {d : Json}
    (h : readFrom ⟨.string read, e⟩ chunks = some d) :
    ∃ body items rest next, Item.SpelledAll body items ∧ chunks = body ++ .char '"' :: rest ∧
      accept e (.string (Item.text? (read.reverse ++ items))) = some next ∧
      readFrom ⟨.nothing, next⟩ rest = some d := by
  obtain ⟨rest, next, rfl, hnext, hrest⟩ | ⟨part, later, item, hitem, rfl, hlater⟩ :=
    item_of_readFrom e read h
  · exact ⟨[], [], rest, next, .nil, rfl, by rwa [List.append_nil], hrest⟩
  · -- An item takes up to six chunks, so the recursion is on how many are left.
    have hpart := hitem.length_pos
    obtain ⟨body, items, rest, next, hbody, rfl, hnext, hrest⟩ := items_of_readFrom hlater
    refine ⟨part ++ body, item :: items, rest, next, .cons hitem hbody, ?_, ?_, hrest⟩
    · rw [List.append_assoc]
    · rwa [List.reverse_cons, List.append_assoc] at hnext
termination_by chunks.length
decreasing_by
  subst_vars
  rw [List.length_append]
  omega

section Words

def wordEnds : Text := [' ', '\t', '\n', '\r', '"', '[', ']', '\x7b', '\x7d', ',', ':']

theorem mem_wordEnds {c : Char} (h : endsWord c) : c ∈ wordEnds := by
  by_contra hc
  simp only [wordEnds, List.mem_cons, List.not_mem_nil, or_false, not_or] at hc
  simp [endsWord, isSpace, punctuation?, hc] at h

/-- The characters of a bare word do not end it. -/
theorem endsWord_eq_false {word : Text} {value : Json} (h : WordSpelled word value) {c : Char}
    (hc : c ∈ word) : endsWord c = false := by
  have hname {name : Text} (hall : name.any endsWord = false) (hc : c ∈ name) :
      endsWord c = false := eq_false_of_ne_true (List.any_eq_false.1 hall c hc)
  cases h with
  | null => exact hname rfl hc
  | true => exact hname rfl hc
  | false => exact hname rfl hc
  | number h =>
    have hends : wordEnds.any (fun c => c.isDigit || ['-', '+', '.', 'e', 'E'].contains c) =
      false := rfl
    cases hword : endsWord c with
    | false => rfl
    | true =>
      have hneither := List.any_eq_false.1 hends c (mem_wordEnds hword)
      rw [Bool.or_eq_true, List.contains_iff_mem] at hneither
      exact absurd (h.isDigit_or_mem hc) hneither

variable {e : Expected} {d : Json}

theorem readFrom_between_cons (c : Char) (rest : List Chunk) :
    readFrom ⟨.nothing, e⟩ (.char c :: rest) =
      (stepBetween e c).bind fun next => readFrom next rest :=
  readFrom_cons _ _ _

theorem readFrom_word_cons (read : Text) (c : Char) (rest : List Chunk) :
    readFrom ⟨.word read, e⟩ (.char c :: rest) =
      if endsWord c then
        (endWord read e).bind fun next => readFrom ⟨.nothing, next⟩ (.char c :: rest)
      else readFrom ⟨.word (c :: read), e⟩ rest := by
  rw [readFrom_cons]
  change (if endsWord c then (endWord read e).bind fun next => stepBetween next c
    else some ⟨.word (c :: read), e⟩).bind _ = _
  split
  · rw [Option.bind_assoc]
    simp only [readFrom_between_cons]
  · rfl

/-- A bare word goes on as long as no character ends it. -/
theorem readFrom_word_append {word : Text} (h : ∀ c ∈ word, endsWord c = false) (read : Text)
    (rest : List Chunk) : readFrom ⟨.word read, e⟩ (word.map .char ++ rest) =
      readFrom ⟨.word (word.reverse ++ read), e⟩ rest := by
  induction word generalizing read with
  | nil => rfl
  | cons c word ih =>
    rw [List.map_cons, List.cons_append, readFrom_word_cons, h c List.mem_cons_self,
      if_neg Bool.false_ne_true, ih fun d hd => h d (List.mem_cons_of_mem c hd),
      List.reverse_cons, List.append_assoc, List.singleton_append]

/-- A bare word is begun by its first character. -/
theorem readFrom_word {word : Text} {value : Json} (h : WordSpelled word value)
    (rest : List Chunk) : readFrom ⟨.nothing, e⟩ (word.map .char ++ rest) =
      readFrom ⟨.word word.reverse, e⟩ rest := by
  have hends : ∀ c ∈ word, endsWord c = false := fun _ hc => endsWord_eq_false h hc
  obtain ⟨c, word, rfl⟩ := h.exists_cons
  have hc := hends c List.mem_cons_self
  simp only [endsWord, Bool.or_eq_false_iff, beq_eq_false_iff_ne, Option.isSome_eq_false_iff,
    Option.isNone_iff_eq_none] at hc
  obtain ⟨⟨hspace, hquote⟩, hmark⟩ := hc
  rw [List.map_cons, List.cons_append, readFrom_between_cons, stepBetween, hspace,
    if_neg Bool.false_ne_true, if_neg hquote, hmark, List.reverse_cons]
  exact readFrom_word_append (fun d hd => hends d (List.mem_cons_of_mem c hd)) [c] rest

/-- A bare word that is read to the end of the document is a word up to some place, and the rest is
read from between two symbols. -/
theorem word_of_readFrom {read : Text} {chunks : List Chunk}
    (h : readFrom ⟨.word read, e⟩ chunks = some d) :
    ∃ (word : Text) (rest : List Chunk) (next : Expected), chunks = word.map .char ++ rest ∧
      endWord (word.reverse ++ read) e = some next ∧
      readFrom ⟨.nothing, next⟩ rest = some d := by
  induction chunks generalizing read with
  | nil =>
    change ((endWord read e).bind fun next => readFrom ⟨.nothing, next⟩ []) = some d at h
    obtain ⟨next, hnext, hd⟩ := Option.bind_eq_some_iff.1 h
    exact ⟨[], [], next, rfl, hnext, hd⟩
  | cons chunk chunks ih =>
    match chunk with
    | .illFormed _ => cases h
    | .char c =>
      rw [readFrom_word_cons] at h
      split at h
      · obtain ⟨next, hnext, hrest⟩ := Option.bind_eq_some_iff.1 h
        exact ⟨[], .char c :: chunks, next, rfl, hnext, hrest⟩
      · obtain ⟨word, rest, next, rfl, hnext, hrest⟩ := ih h
        exact ⟨c :: word, rest, next, rfl, by simpa using hnext, hrest⟩

end Words

def acceptAll (e : Expected) (symbols : List Symbol) : Option Expected := symbols.foldlM accept e

theorem acceptAll_cons (e : Expected) (symbol : Symbol) (symbols : List Symbol) :
    acceptAll e (symbol :: symbols) =
      (accept e symbol).bind fun next => acceptAll next symbols :=
  List.foldlM_cons

theorem spelled_of_punctuation {c : Char} {symbol : Symbol} (h : punctuation? c = some symbol) :
    symbol.Spelled [.char c] := by
  unfold punctuation? at h
  split_ifs at h with h₁ h₂ h₃ h₄ h₅ h₆
  all_goals
    cases h
    subst_vars
    constructor

/-- A document that is read spells symbols that lead to it. -/
theorem spells_of_readFrom {e : Expected} {chunks : List Chunk} {d : Json}
    (h : readFrom ⟨.nothing, e⟩ chunks = some d) :
    ∃ symbols, Spells chunks symbols ∧ acceptAll e symbols = some (.nothing d) := by
  match chunks with
  | [] =>
    refine ⟨[], .nil, ?_⟩
    cases e with
    | nothing document =>
      obtain rfl := Option.some.inj h
      rfl
    | _ => cases h
  | .illFormed _ :: _ => cases h
  | .char c :: rest =>
    rw [readFrom_between_cons, stepBetween] at h
    split at h
    · rename_i hspace
      obtain ⟨symbols, hspells, haccept⟩ := spells_of_readFrom h
      exact ⟨symbols, .space hspace hspells, haccept⟩
    · split at h
      · rename_i hquote
        subst hquote
        obtain ⟨body, items, later, next, hbody, rfl, hnext, hlater⟩ := items_of_readFrom h
        obtain ⟨symbols, hspells, haccept⟩ := spells_of_readFrom hlater
        refine ⟨.string (Item.text? items) :: symbols, ?_, ?_⟩
        · have hsymbol := Spells.symbol (.string hbody) hspells
          simpa using hsymbol
        · rw [acceptAll_cons]
          exact Option.bind_eq_some_iff.2 ⟨next, hnext, haccept⟩
      · split at h
        · rename_i symbol hsymbol
          obtain ⟨s, hs, hrest⟩ := Option.bind_eq_some_iff.1 h
          obtain ⟨next, hnext, rfl⟩ := Option.map_eq_some_iff.1 hs
          obtain ⟨symbols, hspells, haccept⟩ := spells_of_readFrom hrest
          refine ⟨symbol :: symbols, .symbol (spelled_of_punctuation hsymbol) hspells, ?_⟩
          rw [acceptAll_cons]
          exact Option.bind_eq_some_iff.2 ⟨next, hnext, haccept⟩
        · obtain ⟨word, later, next, rfl, hword, hlater⟩ := word_of_readFrom h
          obtain ⟨value, hvalue, hnext⟩ := Option.bind_eq_some_iff.1 hword
          obtain ⟨symbols, hspells, haccept⟩ := spells_of_readFrom hlater
          rw [List.reverse_append, List.reverse_reverse] at hvalue
          have hspelled := Symbol.Spelled.word (wordValue?_eq_some_iff.1 hvalue)
          refine ⟨.plain value :: symbols, .symbol hspelled hspells, ?_⟩
          rw [acceptAll_cons]
          exact Option.bind_eq_some_iff.2 ⟨next, hnext, haccept⟩
termination_by chunks.length
decreasing_by
  all_goals
    subst_vars
    simp only [List.length_cons, List.length_append, List.length_map]
    omega

/-- No value may stand directly behind a plain one. -/
theorem accept_plain_plain {e next : Expected} {v w : Json}
    (h : accept e (.plain v) = some next) : accept next (.plain w) = none := by
  have hcomplete : ∃ frames, complete v frames = next := by
    cases e with
    | value frames => exact ⟨frames, Option.some.inj h⟩
    | firstItem frames => exact ⟨_, Option.some.inj h⟩
    | _ => cases h
  obtain ⟨frames, rfl⟩ := hcomplete
  match frames with
  | [] => rfl
  | .item _ :: _ => rfl
  | .member _ _ :: _ => rfl

/-- A text of symbols starts with a character that ends a word, or else with a word. -/
theorem Spells.head {chunk : Chunk} {rest : List Chunk} {symbols : List Symbol}
    (h : Spells (chunk :: rest) symbols) :
    (∃ c, chunk = .char c ∧ endsWord c) ∨ ∃ value later, symbols = .plain value :: later := by
  generalize hchunks : chunk :: rest = chunks at h
  cases h with
  | nil => cases hchunks
  | space hc hrest =>
    cases hchunks
    exact .inl ⟨_, rfl, by rw [endsWord, hc]; rfl⟩
  | symbol hsymbol hrest =>
    cases hsymbol with
    | word hword => exact .inr ⟨_, _, rfl⟩
    | _ =>
      cases hchunks
      exact .inl ⟨_, rfl, by decide⟩

/-- A word ends where the symbols behind it are accepted. -/
theorem readFrom_word_end {read : Text} {e next : Expected} {rest : List Chunk}
    {symbols : List Symbol} {d : Json} (hread : endWord read e = some next)
    (hrest : Spells rest symbols) (h : acceptAll next symbols = some (.nothing d)) :
    readFrom ⟨.word read, e⟩ rest = readFrom ⟨.nothing, next⟩ rest := by
  match rest with
  | [] =>
    change (endWord read e).bind _ = _
    rw [hread]
    rfl
  | chunk :: rest =>
    obtain ⟨c, rfl, hc⟩ | ⟨value, later, rfl⟩ := hrest.head
    · rw [readFrom_word_cons, if_pos hc, hread, Option.bind_some]
    · obtain ⟨v, -, hv⟩ := Option.bind_eq_some_iff.1 hread
      rw [acceptAll_cons, accept_plain_plain hv] at h
      cases h

/-- A document is read from every text of symbols that lead to it. -/
theorem readFrom_of_spells {e : Expected} {chunks : List Chunk} {symbols : List Symbol} {d : Json}
    (hspells : Spells chunks symbols) (h : acceptAll e symbols = some (.nothing d)) :
    readFrom ⟨.nothing, e⟩ chunks = some d := by
  induction hspells generalizing e with
  | nil =>
    cases h
    rfl
  | space hc hrest ih =>
    rw [readFrom_between_cons, stepBetween, if_pos hc]
    exact ih h
  | @symbol part rest symbol symbols hsymbol hrest ih =>
    rw [acceptAll_cons] at h
    obtain ⟨next, hnext, hlater⟩ := Option.bind_eq_some_iff.1 h
    have hread := ih hlater
    cases hsymbol with
    | @string body items hbody =>
      rw [List.cons_append, List.append_assoc]
      change readFrom ⟨.string [], e⟩ _ = _
      rw [readFrom_items e [] hbody, List.append_nil, List.singleton_append,
        readFrom_string_cons, stepString, if_pos rfl, List.reverse_reverse, hnext]
      exact hread
    | @word text value hword =>
      -- Nothing marks the end of a word; it ends here because the next symbol is accepted.
      rw [readFrom_word hword, readFrom_word_end ?_ hrest hlater]
      · exact hread
      · rw [endWord, List.reverse_reverse, wordValue?_eq_some_iff.2 hword]
        exact hnext
    | _ =>
      rw [List.singleton_append, readFrom_between_cons]
      change Option.bind (Option.map _ (accept e _)) _ = _
      rw [hnext]
      exact hread

theorem ofChunks?_eq_some_iff_exists {chunks : List Chunk} {d : Json} :
    ofChunks? chunks = some d ↔
      ∃ symbols, Spells chunks symbols ∧ acceptAll (.value []) symbols = some (.nothing d) :=
  ⟨spells_of_readFrom, fun ⟨_, hspells, haccept⟩ => readFrom_of_spells hspells haccept⟩

end Reader

end SourceTokens.Json
