import SourceTokens.Command.Run

/-!
The command line program. It takes a picture of the files that its arguments may name, runs the
command on that picture and writes what the command leaves behind. No transport is built into it,
so a service cannot listen on any endpoint.
-/

namespace SourceTokens.Program

open Command

def usageText : String :=
  "usage: uc tokens [--scrub] [--json] FILE\n" ++
  "       uc roundtrip PATH...\n" ++
  "       uc serve [--endpoint ADDR] [--language LANG]\n"

def faultOf : IO.Error → FileFault
  | .inappropriateType .. => .notDirectory
  | _ => .notFound

partial def load (path : String) : IO FileTree := do
  let place := System.mkFilePath [path]
  if ← place.isDir then
    let entries ← place.readDir
    let trees ← entries.toList.mapM fun entry => do
      return (entry.fileName.toList, ← load (path ++ "/" ++ entry.fileName))
    return .directory trees
  else return .file (← IO.FS.readBinFile place).toList

def picture (arg : String) : IO (Text × Except FileFault FileTree) := do
  match ← (load arg).toBaseIO with
  | .ok tree => return (arg.toList, .ok tree)
  | .error e => return (arg.toList, .error (faultOf e))

def environment (args : List String) : IO Environment := do
  let pictures ← args.mapM picture
  return {
    lookup := fun path =>
      ((pictures.find? (·.1 == path)).map (·.2)).getD (.error .notFound)
    listen := fun _ => .error (.socket "Protocol not supported".toList) }

def exitCode (args : List String) : IO Nat := do
  match invocation? (args.map String.toList) with
  | none =>
    (← IO.getStderr).putStr usageText
    return Outcome.unusable
  | some invocation =>
    let outcome := run (← environment args) invocation
    (← IO.getStdout).putStr (String.ofList outcome.stdout)
    (← IO.getStderr).putStr (String.ofList outcome.stderr)
    return outcome.code

end SourceTokens.Program

def main (args : List String) : IO UInt32 := do
  return (← SourceTokens.Program.exitCode args).toUInt32
