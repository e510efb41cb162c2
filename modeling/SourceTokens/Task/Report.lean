import SourceTokens.FileTree
import SourceTokens.Quoted

/-!
Runs of the build tool and what is reported of them. Every run is announced by its command line.
A run that succeeds says no more; of one that fails the whole output is shown. Reports follow each
other up to the first failure.
-/

namespace SourceTokens.Task

structure ToolRun where
  code : Nat := 0
  stdout : List UInt8 := []
  stderr : List UInt8 := []
  deriving DecidableEq, Repr

abbrev Tool := List Text → Except FileFault ToolRun

structure Report where
  text : Text := []
  passed : Bool := true
  deriving DecidableEq, Repr

namespace Report

def ofLine (line : Text) : Report := { text := line ++ ['\n'] }

def failure (message : Text) : Report := { text := message ++ ['\n'], passed := false }

def andThen (first second : Report) : Report :=
  if first.passed then { text := first.text ++ second.text, passed := second.passed } else first

end Report

def toolName : Text := "cargo".toList

/-- Arguments of these characters alone stand for themselves on a command line. -/
def isPlain (c : Char) : Bool := c.isAlphanum || "-_./:".toList.contains c

def shown (arg : Text) : Text := if arg.all isPlain then arg else Text.quoted arg

def joinWords (words : List Text) : Text := (words.intersperse [' ']).flatten

def announcement (args : List Text) : Report :=
  .ofLine ("$ ".toList ++ toolName ++ ' ' :: joinWords (args.map shown))

def labelled (label : Text) (bytes : List UInt8) : Text :=
  if bytes.isEmpty then []
  else
    let text := label ++ ":\n".toList ++ Utf8.decodeLenient bytes
    if text.getLast? = some '\n' then text else text ++ ['\n']

def outputText (run : ToolRun) : Text :=
  let text := labelled "stdout".toList run.stdout ++ labelled "stderr".toList run.stderr
  if text.isEmpty then "(no output)\n".toList else text

def runWith (tool : Tool) (args : List Text) (report : ToolRun → Report) : Report :=
  (announcement args).andThen
    (match tool args with
    | .error fault =>
      .failure ("Failed to run ".toList ++ toolName ++ ": ".toList ++ fault.message)
    | .ok run => report run)

def runRequired (tool : Tool) (args : List Text) : Report :=
  runWith tool args fun run =>
    if run.code = 0 then {}
    else .failure (toolName ++ ' ' :: joinWords args ++ " failed:\n".toList ++ outputText run)

end SourceTokens.Task
