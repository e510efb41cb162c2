import SourceTokens.Json.Basic
import SourceTokens.Json.Quoted

/-!
Documents from text. The reader goes through the chunks of a text once, from left to right. Its
state has two halves: what it has read of the symbol at hand, and which values the symbols before
have left open. A document is complete when the last symbol has closed the outermost value.
-/

namespace SourceTokens.Json.Reader

open Utf8 (Chunk)

inductive Symbol
  | openArray
  | closeArray
  | openObject
  | closeObject
  | comma
  | colon
  | string (text : Option Text)
  /-- A value that is neither a string nor holds other values. -/
  | plain (value : Json)

/-- Where a value goes once it is complete. Items and members are kept newest first. -/
inductive Frame
  | item (before : List Json)
  | member (before : List (Option Text × Json)) (key : Option Text)

/-- What may come next. The frames belong to the arrays and objects around that place. -/
inductive Expected
  | value (frames : List Frame)
  | firstItem (frames : List Frame)
  | firstKey (frames : List Frame)
  | key (before : List (Option Text × Json)) (frames : List Frame)
  | colon (before : List (Option Text × Json)) (key : Option Text) (frames : List Frame)
  | afterItem (items : List Json) (frames : List Frame)
  | afterMember (members : List (Option Text × Json)) (frames : List Frame)
  | nothing (document : Json)

def complete (value : Json) : List Frame → Expected
  | [] => .nothing value
  | .item before :: frames => .afterItem (value :: before) frames
  | .member before key :: frames => .afterMember ((key, value) :: before) frames

def beginValue (frames : List Frame) : Symbol → Option Expected
  | .plain value => some (complete value frames)
  | .string text => some (complete (.string text) frames)
  | .openArray => some (.firstItem frames)
  | .openObject => some (.firstKey frames)
  | _ => none

def accept : Expected → Symbol → Option Expected
  | .value frames, symbol => beginValue frames symbol
  | .firstItem frames, .closeArray => some (complete (.array []) frames)
  | .firstItem frames, symbol => beginValue (.item [] :: frames) symbol
  | .firstKey frames, .closeObject => some (complete (.object []) frames)
  | .firstKey frames, .string key => some (.colon [] key frames)
  | .key before frames, .string key => some (.colon before key frames)
  | .colon before key frames, .colon => some (.value (.member before key :: frames))
  | .afterItem items frames, .comma => some (.value (.item items :: frames))
  | .afterItem items frames, .closeArray => some (complete (.array items.reverse) frames)
  | .afterMember members frames, .comma => some (.key members frames)
  | .afterMember members frames, .closeObject =>
    some (complete (.object members.reverse) frames)
  | _, _ => none

inductive Unfinished
  | nothing
  /-- A number or one of the three names. -/
  | word (read : Text)
  | string (read : List Item)
  | escape (read : List Item)
  /-- A string inside an escaped code unit, with the digits still owed. -/
  | unit (read : List Item) (owed code : Nat)

def wordValue? (word : Text) : Option Json :=
  if word = "null".toList then some .null
  else if word = "true".toList then some (.boolean true)
  else if word = "false".toList then some (.boolean false)
  else (Number.read? word).map .number

def isSpace (c : Char) : Bool := c == ' ' || c == '\t' || c == '\n' || c == '\r'

def punctuation? (c : Char) : Option Symbol :=
  if c = '[' then some .openArray
  else if c = ']' then some .closeArray
  else if c = '\x7b' then some .openObject
  else if c = '\x7d' then some .closeObject
  else if c = ',' then some .comma
  else if c = ':' then some .colon
  else none

structure State where
  symbol : Unfinished
  expected : Expected

def start : State := ⟨.nothing, .value []⟩

def stepBetween (expected : Expected) (c : Char) : Option State :=
  if isSpace c then some ⟨.nothing, expected⟩
  else if c = '"' then some ⟨.string [], expected⟩
  else match punctuation? c with
    | some symbol => (accept expected symbol).map (⟨.nothing, ·⟩)
    | none => some ⟨.word [c], expected⟩

def endWord (read : Text) (expected : Expected) : Option Expected := do
  accept expected (.plain (← wordValue? read.reverse))

def endsWord (c : Char) : Bool := isSpace c || c == '"' || (punctuation? c).isSome

def stepString (read : List Item) (expected : Expected) : Chunk → Option State
  | .illFormed _ => some ⟨.string (.illFormed :: read), expected⟩
  | .char c =>
    if c = '"' then
      (accept expected (.string (Item.text? read.reverse))).map (⟨.nothing, ·⟩)
    else if c = '\\' then some ⟨.escape read, expected⟩
    else if c.toNat < 0x20 then none
    else some ⟨.string (.char c :: read), expected⟩

def stepEscape (read : List Item) (expected : Expected) (c : Char) : Option State :=
  if c = 'u' then some ⟨.unit read 3 0, expected⟩
  else (Item.ofEscape? c).map fun escaped => ⟨.string (.char escaped :: read), expected⟩

def stepUnit (read : List Item) (owed code : Nat) (expected : Expected) (c : Char) :
    Option State := do
  let code := code * 16 + (← Item.hexValue? c)
  match owed with
  | 0 => some ⟨.string (.unit code :: read), expected⟩
  | n + 1 => some ⟨.unit read n code, expected⟩

def step (s : State) (chunk : Chunk) : Option State :=
  match s.symbol with
  | .string read => stepString read s.expected chunk
  | .nothing => do stepBetween s.expected (← chunk.char?)
  | .escape read => do stepEscape read s.expected (← chunk.char?)
  | .unit read owed code => do stepUnit read owed code s.expected (← chunk.char?)
  | .word read => do
    let c ← chunk.char?
    if endsWord c then stepBetween (← endWord read s.expected) c
    else some ⟨.word (c :: read), s.expected⟩

def run (s : State) : List Chunk → Option State
  | [] => some s
  | chunk :: rest =>
    match step s chunk with
    | some next => run next rest
    | none => none

def finish? (s : State) : Option Json := do
  let expected ← match s.symbol with
    | .nothing => some s.expected
    | .word read => endWord read s.expected
    | _ => none
  match expected with
  | .nothing document => some document
  | _ => none

end Reader

def ofChunks? (chunks : List Utf8.Chunk) : Option Json := do
  Reader.finish? (← Reader.run Reader.start chunks)

def ofText? (text : Text) : Option Json := ofChunks? (text.map .char)

def ofBytes? (bytes : List UInt8) : Option Json := ofChunks? (Utf8.chunks bytes)

end SourceTokens.Json
