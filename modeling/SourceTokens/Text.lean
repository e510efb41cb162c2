/-!
Text is a list of characters, the unit in which columns are counted. A source is cut into
physical lines after every line feed, and each line keeps its terminator, so the lines put
together are the source again.
-/

namespace SourceTokens

abbrev Text := List Char

namespace Text

/-- A space, a tab or a form feed: what may stand between two tokens of a line. -/
def isBlank (c : Char) : Bool := c == ' ' || c == '\t' || c == '\x0c'

def isBreak (c : Char) : Bool := c == '\r' || c == '\n'

/-- The physical lines of a text. Only the last one may lack its line feed. -/
def lines : Text → List Text
  | [] => []
  | c :: rest =>
    if c = '\n' then [c] :: lines rest
    else match lines rest with
      | [] => [[c]]
      | line :: later => (c :: line) :: later

theorem flatten_lines (text : Text) : (lines text).flatten = text := by
  induction text with
  | nil => rfl
  | cons c rest ih =>
    unfold lines
    split
    · simp [ih]
    · split <;> simp_all

/-- A text that ends in a line feed leaves the lines of what follows it as they are. -/
theorem lines_append_of_break (a b : Text) (h : a.getLast? = some '\n') :
    lines (a ++ b) = lines a ++ lines b := by
  induction a with
  | nil => simp at h
  | cons c rest ih =>
    simp only [List.cons_append, lines]
    by_cases hrest : rest = []
    · subst hrest
      obtain rfl : c = '\n' := by simpa using h
      simp [lines]
    · have hlast : rest.getLast? = some '\n' := by
        rwa [List.getLast?_cons_of_ne_nil hrest] at h
      have hne : lines rest ≠ [] := by
        intro hnil
        have hflat := flatten_lines rest
        simp_all
      rw [ih hlast]
      split
      · rfl
      · cases hlines : lines rest with
        | nil => exact absurd hlines hne
        | cons line later => rfl

def dropBreaks (text : Text) : Text := (text.reverse.dropWhile isBreak).reverse

theorem dropBreaks_append_drop (text : Text) :
    dropBreaks text ++ text.drop (dropBreaks text).length = text := by
  have h : dropBreaks text <+: text := by
    unfold dropBreaks
    have := List.dropWhile_suffix (l := text.reverse) isBreak
    simpa using List.reverse_prefix.2 this
  exact List.prefix_iff_eq_append.1 h

def ofNat (n : Nat) : Text := Nat.toDigits 10 n

/-- Equality up to the case of ASCII letters; other letters must agree exactly. -/
def sameIgnoringAsciiCase (a b : Text) : Bool := a.map Char.toLower == b.map Char.toLower

end Text

end SourceTokens
