import Mathlib.Data.List.Basic
import SourceTokens.Json.Printer
import SourceTokens.Proofs.CharacterBytes
import SourceTokens.Proofs.JsonSpelling

/-!
Documents and their symbols. Every document has a list of symbols, and what the reader expects at a
place tells which symbols it has taken so far, so it comes to a document exactly behind the symbols
of that document. A document is therefore read from all the texts that spell its symbols, and from
no others; how it is written is one of them.
-/

namespace SourceTokens.Json

open Utf8 (Chunk)
open Reader

mutual

def symbols : Json → List Symbol
  | .null => [.plain .null]
  | .boolean value => [.plain (.boolean value)]
  | .number n => [.plain (.number n)]
  | .string text => [.string text]
  | .array items => .openArray :: (itemSymbols items ++ [.closeArray])
  | .object members => .openObject :: (memberSymbols members ++ [.closeObject])

def itemSymbols : List Json → List Symbol
  | [] => []
  | [item] => symbols item
  | item :: next :: rest => symbols item ++ .comma :: itemSymbols (next :: rest)

def memberSymbols : List (Option Text × Json) → List Symbol
  | [] => []
  | [(key, value)] => .string key :: .colon :: symbols value
  | (key, value) :: next :: rest =>
    .string key :: .colon :: (symbols value ++ .comma :: memberSymbols (next :: rest))

end

def itemsBefore (items : List Json) : List Symbol :=
  items.flatMap fun item => item.symbols ++ [.comma]

def membersBefore (members : List (Option Text × Json)) : List Symbol :=
  members.flatMap fun member => .string member.1 :: .colon :: (member.2.symbols ++ [.comma])

theorem itemSymbols_concat (items : List Json) (last : Json) :
    itemSymbols (items ++ [last]) = itemsBefore items ++ last.symbols := by
  induction items with
  | nil => rw [List.nil_append, itemSymbols]; rfl
  | cons item rest ih =>
    cases rest with
    | nil => simp [itemSymbols, itemsBefore]
    | cons next rest =>
      rw [List.cons_append, List.cons_append, itemSymbols, ← List.cons_append, ih]
      simp [itemsBefore]

theorem memberSymbols_concat (members : List (Option Text × Json)) (key : Option Text)
    (last : Json) : memberSymbols (members ++ [(key, last)]) =
      membersBefore members ++ .string key :: .colon :: last.symbols := by
  induction members with
  | nil => rw [List.nil_append, memberSymbols]; rfl
  | cons member rest ih =>
    obtain ⟨k, v⟩ := member
    cases rest with
    | nil => simp [memberSymbols, membersBefore]
    | cons next rest =>
      change .string k :: .colon :: (v.symbols ++
        .comma :: memberSymbols (next :: rest ++ [(key, last)])) = _
      rw [ih]
      simp [membersBefore]

namespace Reader

def Symbol.IsProper : Symbol → Prop
  | .plain value => value.symbols = [.plain value]
  | _ => True

def framesRead : List Frame → List Symbol
  | [] => []
  | .item before :: frames => framesRead frames ++ .openArray :: itemsBefore before.reverse
  | .member before key :: frames =>
    framesRead frames ++ .openObject :: (membersBefore before.reverse ++ [.string key, .colon])

namespace Expected

def read : Expected → List Symbol
  | .value frames => framesRead frames
  | .firstItem frames => framesRead frames ++ [.openArray]
  | .firstKey frames => framesRead frames ++ [.openObject]
  | .key before frames => framesRead frames ++ .openObject :: membersBefore before.reverse
  | .colon before name frames =>
    framesRead frames ++ .openObject :: (membersBefore before.reverse ++ [.string name])
  | .afterItem items frames => framesRead frames ++ .openArray :: itemSymbols items.reverse
  | .afterMember members frames =>
    framesRead frames ++ .openObject :: memberSymbols members.reverse
  | .nothing document => document.symbols

/-- What comes after an item or a member comes after at least one. -/
def IsProper : Expected → Prop
  | .afterItem items _ => items ≠ []
  | .afterMember members _ => members ≠ []
  | _ => True

end Expected

theorem read_complete (value : Json) (frames : List Frame) :
    (complete value frames).read = framesRead frames ++ value.symbols := by
  match frames with
  | [] => rfl
  | .item before :: frames =>
    rw [complete, Expected.read, List.reverse_cons, itemSymbols_concat]
    simp [framesRead]
  | .member before key :: frames =>
    rw [complete, Expected.read, List.reverse_cons, memberSymbols_concat]
    simp [framesRead]

theorem isProper_complete (value : Json) (frames : List Frame) :
    (complete value frames).IsProper := by
  match frames with
  | [] => trivial
  | .item _ :: _ => exact List.cons_ne_nil _ _
  | .member _ _ :: _ => exact List.cons_ne_nil _ _

theorem isProper_of_beginValue {frames : List Frame} {symbol : Symbol} {next : Expected}
    (h : beginValue frames symbol = some next) : next.IsProper := by
  cases symbol <;> cases h
  · trivial
  · trivial
  · exact isProper_complete _ _
  · exact isProper_complete _ _

theorem isProper_of_accept {e next : Expected} {symbol : Symbol}
    (h : accept e symbol = some next) : next.IsProper := by
  unfold accept at h
  split at h
  all_goals first | exact isProper_of_beginValue h | cases h
  all_goals first | exact isProper_complete _ _ | trivial

theorem read_of_beginValue {frames : List Frame} {symbol : Symbol} {next : Expected}
    (hproper : symbol.IsProper) (h : beginValue frames symbol = some next) :
    next.read = framesRead frames ++ [symbol] := by
  cases symbol <;> cases h
  · rfl
  · rfl
  · exact read_complete _ _
  · rw [read_complete, hproper]

theorem itemsBefore_of_ne_nil {items : List Json} (h : items ≠ []) :
    itemsBefore items = itemSymbols items ++ [.comma] := by
  obtain ⟨front, last, rfl⟩ := List.eq_nil_or_concat' items |>.resolve_left h
  rw [itemSymbols_concat]
  simp [itemsBefore]

theorem membersBefore_of_ne_nil {members : List (Option Text × Json)} (h : members ≠ []) :
    membersBefore members = memberSymbols members ++ [.comma] := by
  obtain ⟨front, ⟨key, last⟩, rfl⟩ := List.eq_nil_or_concat' members |>.resolve_left h
  rw [memberSymbols_concat]
  simp [membersBefore]

/-- Nothing that the reader takes is lost. -/
theorem read_of_accept {e next : Expected} {symbol : Symbol} (he : e.IsProper)
    (hsymbol : symbol.IsProper) (h : accept e symbol = some next) :
    next.read = e.read ++ [symbol] := by
  cases e with
  | value frames => exact read_of_beginValue hsymbol h
  | firstItem frames =>
    by_cases hclose : symbol = .closeArray
    · subst hclose
      obtain rfl := Option.some.inj h
      rw [read_complete]
      simp [Expected.read, symbols, itemSymbols]
    · have hbegin : beginValue (.item [] :: frames) symbol = some next := by
        cases symbol <;> first | exact h | exact absurd rfl hclose
      rw [read_of_beginValue hsymbol hbegin]
      simp [framesRead, Expected.read, itemsBefore]
  | firstKey frames =>
    cases symbol with
    | closeObject =>
      obtain rfl := Option.some.inj h
      rw [read_complete]
      simp [Expected.read, symbols, memberSymbols]
    | string key =>
      obtain rfl := Option.some.inj h
      simp [Expected.read, membersBefore]
    | _ => cases h
  | key before frames =>
    cases symbol with
    | string key =>
      obtain rfl := Option.some.inj h
      simp [Expected.read]
    | _ => cases h
  | colon before key frames =>
    cases symbol with
    | colon =>
      obtain rfl := Option.some.inj h
      simp [Expected.read, framesRead]
    | _ => cases h
  | afterItem items frames =>
    -- Without an item in front of it the comma would not be among the symbols of the array.
    have hne : items.reverse ≠ [] := mt List.reverse_eq_nil_iff.1 he
    cases symbol with
    | comma =>
      obtain rfl := Option.some.inj h
      simp [Expected.read, framesRead, itemsBefore_of_ne_nil hne]
    | closeArray =>
      obtain rfl := Option.some.inj h
      rw [read_complete]
      simp [Expected.read, symbols]
    | _ => cases h
  | afterMember members frames =>
    have hne : members.reverse ≠ [] := mt List.reverse_eq_nil_iff.1 he
    cases symbol with
    | comma =>
      obtain rfl := Option.some.inj h
      simp [Expected.read, membersBefore_of_ne_nil hne]
    | closeObject =>
      obtain rfl := Option.some.inj h
      rw [read_complete]
      simp [Expected.read, symbols]
    | _ => cases h
  | nothing document => cases symbol <;> cases h

/-- What a whole run of the reader has taken is what it has read. -/
theorem read_of_acceptAll {e last : Expected} {taken : List Symbol} (he : e.IsProper)
    (htaken : ∀ symbol ∈ taken, symbol.IsProper) (h : acceptAll e taken = some last) :
    last.read = e.read ++ taken := by
  induction taken generalizing e with
  | nil =>
    obtain rfl := Option.some.inj h
    rw [List.append_nil]
  | cons symbol taken ih =>
    rw [acceptAll_cons] at h
    obtain ⟨next, hnext, hlast⟩ := Option.bind_eq_some_iff.1 h
    rw [ih (isProper_of_accept hnext) (fun s hs => htaken s (List.mem_cons_of_mem _ hs)) hlast,
      read_of_accept he (htaken symbol List.mem_cons_self) hnext, List.append_assoc,
      List.singleton_append]

theorem isProper_of_spelled {part : List Chunk} {symbol : Symbol} (h : symbol.Spelled part) :
    symbol.IsProper := by
  cases h with
  | word hword => cases hword <;> rfl
  | _ => trivial

theorem isProper_of_spells {chunks : List Chunk} {taken : List Symbol} (h : Spells chunks taken) :
    ∀ symbol ∈ taken, symbol.IsProper := by
  induction h with
  | nil => exact List.forall_mem_nil _
  | space hc hrest ih => exact ih
  | symbol h hrest ih => exact List.forall_mem_cons.2 ⟨isProper_of_spelled h, ih⟩

/-- A document does not begin with the end of an array. -/
theorem acceptAll_firstItem (d : Json) (frames : List Frame) (rest : List Symbol) :
    acceptAll (.firstItem frames) (d.symbols ++ rest) =
      acceptAll (.value (.item [] :: frames)) (d.symbols ++ rest) := by
  cases d <;> rfl

mutual

/-- The symbols of a document lead behind it. -/
theorem acceptAll_symbols (d : Json) (frames : List Frame) (rest : List Symbol) :
    acceptAll (.value frames) (d.symbols ++ rest) = acceptAll (complete d frames) rest := by
  match d with
  | .null => rfl
  | .boolean _ => rfl
  | .number _ => rfl
  | .string _ => rfl
  | .array items =>
    rw [symbols, List.cons_append, List.append_assoc, List.singleton_append]
    exact acceptAll_itemSymbols items frames rest
  | .object members =>
    rw [symbols, List.cons_append, List.append_assoc, List.singleton_append]
    exact acceptAll_memberSymbols members frames rest

/-- The symbols of items lead behind the array that they are all of. -/
theorem acceptAll_itemSymbols (items : List Json) (frames : List Frame) (rest : List Symbol) :
    acceptAll (.firstItem frames) (itemSymbols items ++ .closeArray :: rest) =
      acceptAll (complete (.array items) frames) rest := by
  match items with
  | [] => rfl
  | [item] =>
    rw [itemSymbols, acceptAll_firstItem, acceptAll_symbols item]
    rfl
  | item :: next :: later =>
    rw [itemSymbols, List.append_assoc, acceptAll_firstItem, acceptAll_symbols item]
    exact acceptAll_laterItems (next :: later) [item] frames rest (List.cons_ne_nil _ _)

/-- The symbols of items lead behind the array that they end. -/
theorem acceptAll_laterItems (items before : List Json) (frames : List Frame)
    (rest : List Symbol) (h : items ≠ []) :
    acceptAll (.value (.item before :: frames)) (itemSymbols items ++ .closeArray :: rest) =
      acceptAll (complete (.array (before.reverse ++ items)) frames) rest := by
  match items with
  | [] => exact absurd rfl h
  | [item] =>
    rw [itemSymbols, acceptAll_symbols item]
    change acceptAll (complete (.array (item :: before).reverse) frames) rest = _
    rw [List.reverse_cons]
  | item :: next :: later =>
    rw [itemSymbols, List.append_assoc, List.cons_append, acceptAll_symbols item]
    change acceptAll (.value (.item (item :: before) :: frames))
      (itemSymbols (next :: later) ++ _) = _
    rw [acceptAll_laterItems (next :: later) (item :: before) frames rest (List.cons_ne_nil _ _),
      List.reverse_cons, List.append_assoc, List.singleton_append]

/-- The symbols of members lead behind the object that they are all of. -/
theorem acceptAll_memberSymbols (members : List (Option Text × Json)) (frames : List Frame)
    (rest : List Symbol) :
    acceptAll (.firstKey frames) (memberSymbols members ++ .closeObject :: rest) =
      acceptAll (complete (.object members) frames) rest := by
  match members with
  | [] => rfl
  | [(key, value)] =>
    change acceptAll (.value (.member [] key :: frames)) (value.symbols ++ _) = _
    rw [acceptAll_symbols value]
    rfl
  | (key, value) :: next :: later =>
    change acceptAll (.value (.member [] key :: frames)) (value.symbols ++ _ ++ _) = _
    rw [List.append_assoc, acceptAll_symbols value]
    exact acceptAll_laterMembers (next :: later) [(key, value)] frames rest (List.cons_ne_nil _ _)

/-- The symbols of members lead behind the object that they end. -/
theorem acceptAll_laterMembers (members before : List (Option Text × Json)) (frames : List Frame)
    (rest : List Symbol) (h : members ≠ []) :
    acceptAll (.key before frames) (memberSymbols members ++ .closeObject :: rest) =
      acceptAll (complete (.object (before.reverse ++ members)) frames) rest := by
  match members with
  | [] => exact absurd rfl h
  | [(key, value)] =>
    change acceptAll (.value (.member before key :: frames)) (value.symbols ++ _) = _
    rw [acceptAll_symbols value]
    change acceptAll (complete (.object ((key, value) :: before).reverse) frames) rest = _
    rw [List.reverse_cons]
  | (key, value) :: next :: later =>
    change acceptAll (.value (.member before key :: frames)) (value.symbols ++ _ ++ _) = _
    rw [List.append_assoc, acceptAll_symbols value]
    change acceptAll (.key ((key, value) :: before) frames)
      (memberSymbols (next :: later) ++ _) = _
    rw [acceptAll_laterMembers (next :: later) ((key, value) :: before) frames rest
      (List.cons_ne_nil _ _), List.reverse_cons, List.append_assoc, List.singleton_append]

end

/-- The reader comes to a document exactly behind its symbols. -/
theorem acceptAll_eq_some_iff {taken : List Symbol} {d : Json}
    (htaken : ∀ symbol ∈ taken, symbol.IsProper) :
    acceptAll (.value []) taken = some (.nothing d) ↔ taken = d.symbols := by
  constructor
  · intro h
    exact (read_of_acceptAll (e := .value []) trivial htaken h).symm
  · rintro rfl
    have h := acceptAll_symbols d [] []
    rwa [List.append_nil] at h

end Reader

/-- A document is read from the texts that spell its symbols and from no others. -/
theorem ofChunks?_eq_some_iff {chunks : List Chunk} {d : Json} :
    ofChunks? chunks = some d ↔ Spells chunks d.symbols := by
  rw [ofChunks?_eq_some_iff_exists]
  constructor
  · rintro ⟨taken, hspells, haccept⟩
    rwa [(acceptAll_eq_some_iff (isProper_of_spells hspells)).1 haccept] at hspells
  · intro h
    exact ⟨d.symbols, h, (acceptAll_eq_some_iff (isProper_of_spells h)).2 rfl⟩

section Printing

/-- An escaped code unit that is no surrogate stands for a character by itself. -/
theorem text?_unit_cons {code : Nat} (h : code < 0xD800) (rest : List Item) :
    Item.text? (.unit code :: rest) = (Item.text? rest).map (Char.ofNat code :: ·) := by
  have hhigh : Item.isHighSurrogate code = false := by
    rw [Item.isHighSurrogate, decide_eq_false (by omega), Bool.false_and]
  have hlow : Item.isLowSurrogate code = false := by
    rw [Item.isLowSurrogate, decide_eq_false (by omega), Bool.false_and]
  rcases rest with _ | ⟨_ | _ | _, _⟩ <;> simp [Item.text?, hhigh, hlow]

theorem hexValue?_digitChar : ∀ d < 16, Item.hexValue? (Nat.digitChar d) = some d := by
  decide

/-- A character is written as an item that stands for it. -/
theorem exists_item (c : Char) : ∃ item, Item.Spelled ((escapeChar c).map .char) item ∧
    ∀ rest, Item.text? (item :: rest) = (Item.text? rest).map (c :: ·) := by
  have hnamed {letter d : Char} (h : Item.ofEscape? letter = some d) :
      ∃ item, Item.Spelled [.char '\\', .char letter] item ∧
        ∀ rest, Item.text? (item :: rest) = (Item.text? rest).map (d :: ·) :=
    ⟨.char d, .escape h, fun _ => rfl⟩
  unfold escapeChar
  split_ifs with hquote hescape h₁ h₂ h₃ h₄ h₅ hcontrol
  iterate 7
    · subst c
      exact hnamed rfl
  · have hzero : Item.hexValue? '0' = some 0 := rfl
    have hunit := Item.Spelled.unit hzero hzero (hexValue?_digitChar (c.toNat / 16) (by omega))
      (hexValue?_digitChar (c.toNat % 16) (by omega))
    rw [show ((0 * 16 + 0) * 16 + c.toNat / 16) * 16 + c.toNat % 16 = c.toNat by omega] at hunit
    refine ⟨.unit c.toNat, hunit, fun rest => ?_⟩
    rw [text?_unit_cons (by omega), Char.ofNat_toNat]
  · exact ⟨.char c, .char (Nat.not_lt.1 hcontrol) hquote hescape, fun _ => rfl⟩

/-- A text is written as items that stand for it. -/
theorem exists_items (text : Text) : ∃ items,
    Item.SpelledAll ((text.flatMap escapeChar).map .char) items ∧
      Item.text? items = some text := by
  induction text with
  | nil => exact ⟨[], .nil, rfl⟩
  | cons c rest ih =>
    obtain ⟨item, hitem, hc⟩ := exists_item c
    obtain ⟨items, hitems, hrest⟩ := ih
    refine ⟨item :: items, ?_, ?_⟩
    · rw [List.flatMap_cons, List.map_append]
      exact .cons hitem hitems
    · rw [hc, hrest, Option.map_some]

/-- A text is written as its symbol. -/
theorem spelled_quote (text : Text) :
    Symbol.Spelled ((quote text).map .char) (.string (some text)) := by
  obtain ⟨items, hitems, htext⟩ := exists_items text
  have hstring := Symbol.Spelled.string hitems
  rw [htext] at hstring
  rw [quote, List.map_cons, List.map_append]
  exact hstring

/-- A string is written as its symbol also when it cannot be read. -/
theorem spelled_quote? (text : Option Text) :
    Symbol.Spelled ((quote? text).map .char) (.string text) := by
  cases text with
  | some text => exact spelled_quote text
  | none =>
    have hunit := @Item.Spelled.unit 'd' '8' '0' '0' 13 8 0 0 rfl rfl rfl rfl
    have hstring := Symbol.Spelled.string (.cons hunit .nil)
    have htext : Item.text? [.unit (((13 * 16 + 8) * 16 + 0) * 16 + 0)] = none := by
      simp [Item.text?, Item.isHighSurrogate]
    rw [htext] at hstring
    exact hstring

theorem Reader.Symbol.Spelled.spells {part : List Chunk} {symbol : Symbol}
    (h : symbol.Spelled part) : Spells part [symbol] := by
  have hspells := Spells.symbol h .nil
  rwa [List.append_nil] at hspells

theorem Reader.Spells.append {front back : List Chunk} {taken later : List Symbol}
    (h : Spells front taken) (hback : Spells back later) :
    Spells (front ++ back) (taken ++ later) := by
  induction h with
  | nil => exact hback
  | space hc hrest ih => exact .space hc ih
  | symbol hsymbol hrest ih =>
    rw [List.append_assoc]
    exact .symbol hsymbol ih

mutual

/-- A document is written as its symbols. -/
theorem spells_print (d : Json) : Spells (d.print.map .char) d.symbols := by
  match d with
  | .null => exact (Symbol.Spelled.word .null).spells
  | .boolean true => exact (Symbol.Spelled.word .true).spells
  | .boolean false => exact (Symbol.Spelled.word .false).spells
  | .number n => exact (Symbol.Spelled.word (.number n.spelled_text)).spells
  | .string text => exact (spelled_quote? text).spells
  | .array items =>
    have hitems := (spells_printItems items).append Symbol.Spelled.closeArray.spells
    change Spells (('[' :: printItems items ++ [']']).map .char) _
    rw [List.cons_append, List.map_cons, List.map_append]
    exact .symbol .openArray hitems
  | .object members =>
    have hmembers := (spells_printMembers members).append Symbol.Spelled.closeObject.spells
    change Spells (('\x7b' :: printMembers members ++ ['\x7d']).map .char) _
    rw [List.cons_append, List.map_cons, List.map_append]
    exact .symbol .openObject hmembers

theorem spells_printItems (items : List Json) :
    Spells ((printItems items).map .char) (itemSymbols items) := by
  match items with
  | [] => exact .nil
  | [item] => exact spells_print item
  | item :: next :: later =>
    rw [printItems, List.map_append, List.map_cons]
    exact (spells_print item).append (.symbol .comma (spells_printItems (next :: later)))

theorem spells_printMembers (members : List (Option Text × Json)) :
    Spells ((printMembers members).map .char) (memberSymbols members) := by
  match members with
  | [] => exact .nil
  | [(key, value)] =>
    rw [printMembers, List.map_append, List.map_cons]
    exact .symbol (spelled_quote? key) (.symbol .colon (spells_print value))
  | (key, value) :: next :: later =>
    have hlater := Spells.symbol .comma (spells_printMembers (next :: later))
    rw [printMembers, List.append_assoc, List.cons_append, List.map_append, List.map_cons,
      List.map_append, List.map_cons]
    exact .symbol (spelled_quote? key) (.symbol .colon ((spells_print value).append hlater))

end

/-- A document is read back from how it is written. -/
theorem ofText?_print (d : Json) : ofText? d.print = some d :=
  ofChunks?_eq_some_iff.2 (spells_print d)

/-- A document is read back from the bytes in which it is written. -/
theorem ofBytes?_encode_print (d : Json) : ofBytes? (Utf8.encode d.print) = some d := by
  rw [ofBytes?, Utf8.chunks_encode]
  exact ofText?_print d

end Printing

end SourceTokens.Json
