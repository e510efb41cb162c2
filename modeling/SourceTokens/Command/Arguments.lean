import SourceTokens.Service.Settings

/-!
The arguments of the command line. Flags may stand before or after other arguments until two
dashes alone end them, and none may be given twice. An argument that starts with a dash is a flag,
unless it is only that dash.
-/

namespace SourceTokens.Command

inductive Invocation
  | version
  | tokens (file : Text) (scrubbed json : Bool)
  | roundTrip (paths : List Text)
  | serve (settings : Settings)
  deriving DecidableEq, Repr

def isFlag : Text → Bool
  | '-' :: _ :: _ => true
  | _ => false

inductive Argument
  | flag (text : Text)
  | plain (text : Text)
  deriving DecidableEq, Repr

def classify : List Text → List Argument
  | [] => []
  | arg :: rest =>
    if arg = ['-', '-'] then rest.map .plain
    else (if isFlag arg then .flag arg else .plain arg) :: classify rest

def Argument.flag? : Argument → Option Text
  | .flag text => some text
  | .plain _ => none

def Argument.plain? : Argument → Option Text
  | .plain text => some text
  | .flag _ => none

def tokensInvocation? (args : List Text) : Option Invocation :=
  let read := classify args
  let flags := read.filterMap Argument.flag?
  let known := ["--scrub".toList, "--json".toList]
  if flags.all known.contains && known.all fun name => flags.count name ≤ 1 then
    match read.filterMap Argument.plain? with
    | [file] =>
      if file.isEmpty then none
      else some (.tokens file (flags.contains "--scrub".toList) (flags.contains "--json".toList))
    | _ => none
  else none

def roundTripInvocation? (args : List Text) : Option Invocation :=
  let read := classify args
  let paths := read.filterMap Argument.plain?
  if read.any (·.flag?.isSome) || paths.isEmpty || paths.any List.isEmpty then none
  else some (.roundTrip paths)

structure Options where
  endpoint : Option Text := none
  language : Option Text := none

def Options.set? (o : Options) (name value : Text) : Option Options :=
  if name = "--endpoint".toList ∧ o.endpoint.isNone then some { o with endpoint := some value }
  else if name = "--language".toList ∧ o.language.isNone then
    some { o with language := some value }
  else none

def splitOption (arg : Text) : Text × Option Text :=
  match arg.dropWhile (· != '=') with
  | [] => (arg, none)
  | _ :: value => (arg.takeWhile (· != '='), some value)

def readOptions? (o : Options) : List Text → Option Options
  | [] => some o
  | arg :: rest =>
    if arg = ['-', '-'] then if rest.isEmpty then some o else none
    else if isFlag arg then
      match splitOption arg, rest with
      | (name, some value), rest => (o.set? name value).bind (readOptions? · rest)
      | (_, none), [] => none
      | (name, none), value :: later =>
        if isFlag value then none else (o.set? name value).bind (readOptions? · later)
    else none

def serveInvocation? (args : List Text) : Option Invocation :=
  (readOptions? {} args).map fun o =>
    let standard : Settings := {}
    .serve {
      endpoint := o.endpoint.getD standard.endpoint
      language := o.language.getD standard.language }

/-- The version is asked for before any subcommand, and nothing after that is looked at. -/
def asksVersion (arg : Text) : Bool := arg == "--version".toList || "-V".toList.isPrefixOf arg

def invocation? : List Text → Option Invocation
  | [] => none
  | name :: args =>
    if asksVersion name then some .version
    else if name = "tokens".toList then tokensInvocation? args
    else if name = "roundtrip".toList then roundTripInvocation? args
    else if name = "serve".toList then serveInvocation? args
    else none

end SourceTokens.Command
