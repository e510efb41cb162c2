import SourceTokens.Text

/-!
Operators and delimiters. The table is ordered by decreasing length, so the first entry that
starts a text is the longest one. Brackets are counted as they open and close; a closing bracket
with none open is ignored.
-/

namespace SourceTokens.Operator

def table : List Text := [
  "**=".toList, "...".toList, "//=".toList, "<<=".toList, ">>=".toList,
  "!=".toList, "%=".toList, "&=".toList, "**".toList, "*=".toList, "+=".toList, "-=".toList,
  "->".toList, "//".toList, "/=".toList, ":=".toList, "<<".toList, "<=".toList, "==".toList,
  ">=".toList, ">>".toList, "@=".toList, "^=".toList, "|=".toList,
  "%".toList, "&".toList, "(".toList, ")".toList, "*".toList, "+".toList, ",".toList,
  "-".toList, ".".toList, "/".toList, ":".toList, ";".toList, "<".toList, "=".toList,
  ">".toList, "@".toList, "[".toList, "]".toList, "^".toList, "\x7b".toList, "|".toList,
  "\x7d".toList, "~".toList]

def longest? (text : Text) : Option Text := table.find? (·.isPrefixOf text)

theorem longest?_append {text operator : Text} (h : longest? text = some operator) :
    operator ++ text.drop operator.length = text := by
  unfold longest? at h
  have hstart := List.find?_some h
  exact List.prefix_iff_eq_append.1 (List.isPrefixOf_iff_prefix.1 hstart)

theorem longest?_ne_nil {text operator : Text} (h : longest? text = some operator) :
    operator ≠ [] := by
  have hmem := List.mem_of_find?_eq_some h
  rintro rfl
  exact absurd hmem (by decide)

def openers : List Text := [['('], ['['], ['\x7b']]

def closers : List Text := [[')'], [']'], ['\x7d']]

def depthAfter (operator : Text) (depth : Nat) : Nat :=
  if openers.contains operator then depth + 1
  else if closers.contains operator then depth - 1
  else depth

end SourceTokens.Operator
