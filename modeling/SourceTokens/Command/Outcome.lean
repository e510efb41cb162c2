import SourceTokens.Text

/-!
What a command leaves behind: its exit code and what it wrote. Output that cannot be written ends
a command. A reader that has gone away is no fault; a device that is full is.
-/

namespace SourceTokens.Command

structure Outcome where
  code : Nat
  stdout : Text := []
  stderr : Text := []
  deriving DecidableEq, Repr

inductive Sink
  | writable
  | full
  | closed
  deriving DecidableEq, Repr

namespace Outcome

def success : Nat := 0

def failed : Nat := 1

def unusable : Nat := 2

def joinLines (lines : List Text) : Text := lines.flatMap (· ++ ['\n'])

def ofMessage (code : Nat) (message : Text) : Outcome :=
  { code := code, stderr := joinLines [message] }

def ofLines (sink : Sink) (lines : List Text) : Outcome :=
  if lines.isEmpty then { code := success }
  else match sink with
    | .writable => { code := success, stdout := joinLines lines }
    | .closed => { code := success }
    | .full =>
      ofMessage unusable "stdout error: No space left on device (os error 28)".toList

end Outcome

end SourceTokens.Command
