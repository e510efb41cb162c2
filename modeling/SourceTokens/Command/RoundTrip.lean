import SourceTokens.FileTree
import SourceTokens.Rebuild
import SourceTokens.Tokenize

/-!
The check that files come back from their tokens. An argument that is a file is checked whatever
it is called; one that is a directory stands for the sources below it, depth first and in the
order of the bytes of their names. Every file is checked once and fails in at most one way.
-/

namespace SourceTokens.RoundTrip

abbrev SourceFile := Text × List UInt8

/-- A name with the extension of a source behind at least one character. -/
def isSourceName (name : Text) : Bool := ".py".toList.isSuffixOf name && 3 < name.length

def inOrder (contributions : List (Text × List SourceFile)) : List SourceFile :=
  (contributions.mergeSort fun a b => FileTree.nameLE a.1 b.1).flatMap (·.2)

def contributions (path : Text) : List (Text × FileTree) → List (Text × List SourceFile)
  | [] => []
  | (name, .file bytes) :: rest =>
    (name, if isSourceName name then [(FileTree.join path name, bytes)] else []) ::
      contributions path rest
  | (name, .directory entries) :: rest =>
    (name, inOrder (contributions (FileTree.join path name) entries)) :: contributions path rest

def sources (path : Text) : FileTree → List SourceFile
  | .file bytes => [(path, bytes)]
  | .directory entries => inOrder (contributions path entries)

def collect (lookup : Text → Except FileFault FileTree) :
    List Text → Except (Text × FileFault) (List SourceFile)
  | [] => .ok []
  | path :: rest =>
    match lookup path with
    | .error fault => .error (path, fault)
    | .ok tree =>
      match collect lookup rest with
      | .error e => .error e
      | .ok files => .ok (sources path tree ++ files)

def differenceFrom (line : Nat) : Text → Text → Nat
  | a :: expected, b :: actual =>
    if a = b then differenceFrom (if a = '\n' then line + 1 else line) expected actual else line
  | _, _ => line

def lineOfDifference (expected actual : Text) : Nat := differenceFrom 1 expected actual

inductive Verdict
  | exact
  | differs (line : Nat)
  | unreadable (fault : FileFault)
  | rejected (error : LexicalError)
  | misplaced (error : PlacementError)
  deriving DecidableEq, Repr

namespace Verdict

def isFailure : Verdict → Bool
  | .exact => false
  | _ => true

def message (path : Text) : Verdict → Option Text
  | .exact => none
  | .differs line => some (path ++ ':' :: Text.ofNat line ++ ": reconstruction differs".toList)
  | .unreadable fault => some (path ++ ": read failed: ".toList ++ fault.message)
  | .rejected e => some (e.render path)
  | .misplaced e => some (path ++ ": ".toList ++ e.message)

end Verdict

def checkText (source : Text) : Verdict :=
  match tokenize source with
  | .error e => .rejected e
  | .ok tokens =>
    match rebuild tokens with
    | .error e => .misplaced e
    | .ok text => if text = source then .exact else .differs (lineOfDifference source text)

def check (bytes : List UInt8) : Verdict :=
  match (FileTree.file bytes).text with
  | .error fault => .unreadable fault
  | .ok source => checkText source

end SourceTokens.RoundTrip
