import SourceTokens.Command.Arguments
import SourceTokens.Command.Outcome
import SourceTokens.Command.RoundTrip
import SourceTokens.Scrub

/-!
The commands themselves. They see the world only through an environment, which finds files, takes
output and listens on endpoints.
-/

namespace SourceTokens.Command

structure Environment where
  lookup : Text → Except FileFault FileTree
  sink : Sink := .writable
  /-- How a service on an endpoint ends, be it that the endpoint cannot be bound. -/
  listen : Text → Except ChannelFault Unit

def versionText : Text := "uc 0.1.0".toList

def visible (text : Text) : Text :=
  text.flatMap fun c =>
    if c = '\n' then ['\\', 'n']
    else if c = '\r' then ['\\', 'r']
    else if c = '\t' then ['\\', 't']
    else if c = '\x0c' then ['\\', 'f']
    else [c]

def tokenLine (t : Token) : Text :=
  t.kind.label ++ '\t' :: t.start.label ++ '-' :: t.stop.label ++ '\t' :: visible t.value

def readText (env : Environment) (path : Text) : Except FileFault Text :=
  match env.lookup path with
  | .error fault => .error fault
  | .ok tree => tree.text

def runTokens (env : Environment) (file : Text) (scrubbed json : Bool) : Outcome :=
  match readText env file with
  | .error fault => .ofMessage Outcome.unusable (file ++ ": read failed: ".toList ++ fault.message)
  | .ok source =>
    match tokenize source with
    | .error e => .ofMessage Outcome.failed (e.render file)
    | .ok tokens =>
      let shown := if scrubbed then scrub tokens else tokens
      .ofLines env.sink
        (if json then [(Token.listToJson shown).print] else shown.map tokenLine)

def summary (verdicts : List RoundTrip.Verdict) : Text :=
  Text.ofNat verdicts.length ++ " files, ".toList ++
    Text.ofNat (verdicts.countP (·.isFailure)) ++ " failed".toList

def runRoundTrip (env : Environment) (paths : List Text) : Outcome :=
  match RoundTrip.collect env.lookup paths with
  | .error (path, fault) => .ofMessage Outcome.unusable (path ++ ": ".toList ++ fault.message)
  | .ok files =>
    let verdicts := files.map fun file => RoundTrip.check file.2
    { code := if verdicts.any (·.isFailure) then Outcome.failed else Outcome.success
      stdout := Outcome.joinLines [summary verdicts]
      stderr := Outcome.joinLines
        ((files.zip verdicts).filterMap fun (file, verdict) => verdict.message file.1) }

/-- A service that its transport ends says nothing. -/
def runServe (env : Environment) (settings : Settings) : Outcome :=
  match settings.serve .python env.listen with
  | .ok () => { code := Outcome.success }
  | .error (.transport _) => { code := Outcome.failed }
  | .error e => .ofMessage Outcome.unusable e.message

def run (env : Environment) : Invocation → Outcome
  | .version =>
    { code := Outcome.success
      stdout := if env.sink = .writable then Outcome.joinLines [versionText] else [] }
  | .tokens file scrubbed json => runTokens env file scrubbed json
  | .roundTrip paths => runRoundTrip env paths
  | .serve settings => runServe env settings

end SourceTokens.Command
