import Inclusion.Disk.Path
/-!
# Options of the command line

    [OPTIONS] [FILE]

Options have a short name, a long name or both. Short names can be put together after one dash, and a
value follows in the same argument, after an equals sign perhaps, or in the next one. After two dashes
every argument is a file. Arguments are looked at from left to right; whichever comes first, a request for
help or something wrong, decides.
-/

namespace Inclusion

namespace CommandLine

structure Options where
  /-- The template, which is read from the standard input if it is not given. -/
  input : Option Path := none
  roots : List Path := []
  ns : Option String := none
  config : Option Path := none
  scope : Option Path := none
  list : Bool := false
  deriving DecidableEq, Repr

def Options.readsInput (o : Options) : Bool :=
  o.input.isNone && !o.list

def usage : String :=
  "Usage: [OPTIONS] [FILE]\n\n" ++
  "  -r, --root DIR        Search root of components, after those of the config (repeatable)\n" ++
  "  -n, --namespace NAME  Namespace of the components\n" ++
  "  -c, --config FILE     Settings (TOML)\n" ++
  "  -s, --scope FILE      Calling scope (YAML or JSON) to evaluate variables in\n" ++
  "  -l, --list            List the components\n" ++
  "  -v, --verbose         Accepted and ignored\n" ++
  "  -h, --help            Show this text\n"

inductive Flag
  | list
  | verbose
  | help
  deriving DecidableEq, Repr

inductive Setting
  | root
  | ns
  | config
  | scope
  deriving DecidableEq, Repr

def shortFlag? : Char → Option Flag
  | 'l' => some .list
  | 'v' => some .verbose
  | 'h' => some .help
  | _ => none

def shortSetting? : Char → Option Setting
  | 'r' => some .root
  | 'n' => some .ns
  | 'c' => some .config
  | 's' => some .scope
  | _ => none

def longFlag? : String → Option Flag
  | "list" => some .list
  | "verbose" => some .verbose
  | "help" => some .help
  | _ => none

def longSetting? : String → Option Setting
  | "root" => some .root
  | "namespace" => some .ns
  | "config" => some .config
  | "scope" => some .scope
  | _ => none

/-- What is known after some arguments. -/
inductive Progress
  | options (o : Options)
  /-- The next argument is the value of the setting. -/
  | awaiting (s : Setting) (o : Options)
  | help
  | misuse
  deriving DecidableEq, Repr

/-- Turns a flag on; only `verbose` can be given twice. -/
def Options.turnOn (f : Flag) (o : Options) : Progress :=
  match f with
  | .help => .help
  | .verbose => .options o
  | .list => if o.list then .misuse else .options { o with list := true }

/-- A path that is given as a value is not empty. -/
def path? (value : String) : Option Path :=
  if value.isEmpty then none else some ⟨value⟩

/-- Gives a setting its value; only roots can be given twice. -/
def Options.give (s : Setting) (value : String) (o : Options) : Progress :=
  match s, path? value with
  | .ns, _ => if o.ns.isSome then .misuse else .options { o with ns := some value }
  | .root, some p => .options { o with roots := o.roots ++ [p] }
  | .config, some p => if o.config.isSome then .misuse else .options { o with config := some p }
  | .scope, some p => if o.scope.isSome then .misuse else .options { o with scope := some p }
  | _, none => .misuse

def Options.file (arg : String) (o : Options) : Progress :=
  match o.input, path? arg with
  | none, some p => .options { o with input := some p }
  | _, _ => .misuse

/-- Takes the short names after one dash. -/
def shortNames : List Char → Options → Progress
  | [], o => .options o
  | c :: rest, o =>
    match shortFlag? c with
    | some f =>
      match o.turnOn f with
      | .options o => shortNames rest o
      | other => other
    | none =>
      match shortSetting? c, rest with
      | some s, [] => .awaiting s o
      | some s, '=' :: value => o.give s (String.ofList value)
      | some s, value => o.give s (String.ofList value)
      | none, _ => .misuse

/-- Takes what follows two dashes. -/
def longName (cs : List Char) (o : Options) : Progress :=
  let name := String.ofList (cs.takeWhile (· ≠ '='))
  match cs.dropWhile (· ≠ '=') with
  | [] =>
    match longFlag? name, longSetting? name with
    | some f, _ => o.turnOn f
    | none, some s => .awaiting s o
    | none, none => .misuse
  | _ :: value =>
    match longSetting? name with
    | some s => o.give s (String.ofList value)
    | none => .misuse

/-- An argument with an option, or the two dashes after which there are none. -/
def isOption (arg : String) : Bool :=
  match arg.toList with
  | '-' :: _ :: _ => true
  | _ => false

/-- Takes one argument; after two dashes (`filesOnly`) it is a file. -/
def take (filesOnly : Bool) (arg : String) (o : Options) : Progress :=
  if filesOnly then o.file arg
  else
    match arg.toList with
    | '-' :: '-' :: name => longName name o
    | '-' :: c :: names => shortNames (c :: names) o
    | _ => o.file arg

def takeAll (filesOnly : Bool) : Progress → List String → Progress
  | .help, _ => .help
  | .misuse, _ => .misuse
  | .options o, [] => .options o
  | .awaiting _ _, [] => .misuse
  | .awaiting s o, arg :: rest =>
    if isOption arg then .misuse else takeAll filesOnly (o.give s arg) rest
  | .options o, arg :: rest =>
    if !filesOnly && arg = "--" then takeAll true (.options o) rest
    else takeAll filesOnly (take filesOnly arg o) rest

inductive Request
  | run (o : Options)
  | help
  | misuse
  deriving DecidableEq, Repr

def Request.ofArguments (args : List String) : Request :=
  match takeAll false (.options {}) args with
  | .options o => .run o
  | .help => .help
  | _ => .misuse

end CommandLine

end Inclusion
