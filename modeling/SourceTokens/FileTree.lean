import SourceTokens.Utf8

/-!
Files and directories as trees, and the paths that lead through them. A path is followed component
by component from the root, or from the working directory when no slash stands in front of it. Every
component but the last must lead to a directory, and so must the last when a slash follows it.
-/

namespace SourceTokens

inductive FileTree
  | file (bytes : List UInt8)
  | directory (entries : List (Text × FileTree))
  deriving Repr

inductive FileFault
  | notFound
  | notDirectory
  | isDirectory
  | nameTooLong
  | notUtf8
  deriving DecidableEq, Repr

def FileFault.message : FileFault → Text
  | .notFound => "No such file or directory (os error 2)".toList
  | .notDirectory => "Not a directory (os error 20)".toList
  | .isDirectory => "Is a directory (os error 21)".toList
  | .nameTooLong => "File name too long (os error 36)".toList
  | .notUtf8 => "stream did not contain valid UTF-8".toList

namespace FileTree

def empty : FileTree := .directory []

def isDirectory : FileTree → Bool
  | .directory _ => true
  | .file _ => false

/-- The components between the slashes of a path. A path that ends in a slash ends in an empty
component. -/
def components : Text → List Text
  | [] => [[]]
  | c :: rest =>
    if c = '/' then [] :: components rest
    else match components rest with
      | [] => [[c]]
      | first :: later => (c :: first) :: later

def staysInPlace (component : Text) : Bool := component.isEmpty || component == ['.']

def child? (entries : List (Text × FileTree)) (name : Text) : Option FileTree :=
  (entries.find? (·.1 == name)).map (·.2)

/-- Follows components from a place below the given ancestors, the nearest of which is first. The
root is the parent of itself. -/
def follow (ancestors : List FileTree) (here : FileTree) :
    List Text → Except FileFault FileTree
  | [] => .ok here
  | component :: rest =>
    match here with
    | .file _ => .error .notDirectory
    | .directory entries =>
      if staysInPlace component then follow ancestors here rest
      else if component = ['.', '.'] then
        match ancestors with
        | [] => follow [] here rest
        | parent :: above => follow above parent rest
      else if 255 < (Utf8.encode component).length then .error .nameTooLong
      else
        match child? entries component with
        | none => .error .notFound
        | some child => follow (here :: ancestors) child rest

def fromRoot (working : List Text) (path : Text) : List Text :=
  if path.head? = some '/' then components path else working ++ components path

/-- What a path leads to, with the root of the file system and the names down to the working
directory. The empty path leads nowhere. -/
def lookup (root : FileTree) (working : List Text) (path : Text) : Except FileFault FileTree :=
  if path = [] then .error .notFound else follow [] root (fromRoot working path)

def text : FileTree → Except FileFault Text
  | .directory _ => .error .isDirectory
  | .file bytes =>
    match Utf8.decode? bytes with
    | some text => .ok text
    | none => .error .notUtf8

/-- Puts a tree at the end of a chain of names and makes the directories on the way. An empty
directory leaves a directory that is there already as it is. -/
def put (new : FileTree) : List Text → FileTree → FileTree
  | [], old =>
    match new, old with
    | .directory [], .directory entries => .directory entries
    | _, _ => new
  | _ :: _, .file bytes => .file bytes
  | name :: rest, .directory entries =>
    let child := put new rest ((child? entries name).getD empty)
    if (child? entries name).isSome then
      .directory (entries.map fun e => if e.1 == name then (name, child) else e)
    else .directory (entries ++ [(name, child)])

def ofPaths (contents : List (Text × FileTree)) : FileTree :=
  contents.foldl
    (fun tree (path, new) => put new ((components path).filter (!staysInPlace ·)) tree) empty

def join (path name : Text) : Text :=
  if path.getLast? = some '/' then path ++ name else path ++ '/' :: name

def nameLE (a b : Text) : Bool :=
  !decide ((Utf8.encode b).map UInt8.toNat < (Utf8.encode a).map UInt8.toNat)

end FileTree

end SourceTokens
