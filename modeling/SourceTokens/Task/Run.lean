import SourceTokens.Task.Report
import SourceTokens.Unicode.WhiteSpace

/-!
The tasks of a developer: the checks of formatting, of lints and of the tests, and the check that
a corpus of sources comes back from its tokens. Verifying does all of them, the last one only if
there is a corpus.
-/

namespace SourceTokens.Task

inductive Job
  | verify
  | formatting
  | lints
  | strictLints
  | tests
  | corpus (directory : Text)
  deriving DecidableEq, Repr

def standardCorpus : Text := "testdata".toList

/-- The job that a command names, if it names one. Only the corpus takes an argument. -/
def job? (name : Text) (args : List Text) : Option Job :=
  if name = "verify".toList then some .verify
  else if name = "fmt".toList then some .formatting
  else if name = "clippy".toList then some .lints
  else if name = "lint".toList then some .strictLints
  else if name = "test".toList then some .tests
  else if name = "corpus".toList then some (.corpus (args.headD standardCorpus))
  else none

def formattingArgs : List Text :=
  ["fmt".toList, "--all".toList, "--".toList, "--check".toList]

def lintArgs : List Text :=
  ["clippy".toList, "--workspace".toList, "--all-targets".toList, "--".toList, "-D".toList,
    "warnings".toList]

def strictLintArgs : List Text :=
  lintArgs ++ ["-W".toList, "clippy::all".toList, "-W".toList, "clippy::perf".toList,
    "-W".toList, "clippy::nursery".toList]

def testArgs : List Text := ["test".toList, "--workspace".toList, "--all-features".toList]

def corpusArgs (directory : Text) : List Text :=
  ["run".toList, "-q".toList, "--release".toList, "-p".toList, "uc_cli".toList, "--bin".toList,
    "uc".toList, "--".toList, "roundtrip".toList, directory]

def isDirectory (lookup : Text → Except FileFault FileTree) (path : Text) : Bool :=
  match lookup path with
  | .ok tree => tree.isDirectory
  | .error _ => false

def runCorpus (lookup : Text → Except FileFault FileTree) (tool : Tool) (directory : Text) :
    Report :=
  if isDirectory lookup directory then
    runWith tool (corpusArgs directory) fun run =>
      if run.code = 0 then
        .ofLine ("corpus: ".toList ++ Unicode.trim (Utf8.decodeLenient run.stdout))
      else .failure ("corpus round-trip failed:\n".toList ++ outputText run)
  else .failure ("corpus: ".toList ++ directory ++ " is not a directory".toList)

def runVerify (lookup : Text → Except FileFault FileTree) (tool : Tool) : Report :=
  (((runRequired tool formattingArgs).andThen (runRequired tool lintArgs)).andThen
    (runRequired tool testArgs)).andThen
    (if isDirectory lookup standardCorpus then runCorpus lookup tool standardCorpus
    else .ofLine ("skip corpus: no ".toList ++ standardCorpus ++ "/ directory".toList))

def runJob (lookup : Text → Except FileFault FileTree) (tool : Tool) : Job → Report
  | .verify => runVerify lookup tool
  | .formatting => runRequired tool formattingArgs
  | .lints => runRequired tool lintArgs
  | .strictLints => runRequired tool strictLintArgs
  | .tests => runRequired tool testArgs
  | .corpus directory => runCorpus lookup tool directory

def usage (name : Text) : Report :=
  .failure ("Unknown command: ".toList ++ name ++
    "\nUsage: cargo run -p xtask -- <verify|fmt|clippy|lint|test|corpus [dir]>".toList)

def run (lookup : Text → Except FileFault FileTree) (tool : Tool) (args : List Text) : Report :=
  let name := args.headD "verify".toList
  match job? name args.tail with
  | some job => runJob lookup tool job
  | none => usage name

end SourceTokens.Task
