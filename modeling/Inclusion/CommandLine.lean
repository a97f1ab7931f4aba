import Inclusion.CommandLine.Options
import Inclusion.Compiler
import Inclusion.Expr.Tree
import Inclusion.Json.Printer
import Inclusion.Report
import Inclusion.Settings.File
/-!
# The command line

A command compiles the directives of a template and prints the include calls as JSON, each with its
variables if a calling scope is given; or it lists the components. What it does is a function of the disk,
of the options and of the standard input. It either succeeds and prints all of its result, or it fails and
prints only a message.
-/

namespace Inclusion

namespace CommandLine

inductive Outcome
  | success (output : String)
  | failure (message : String)
  | misuse
  | help
  /-- The error that stopped the command cannot be reported. -/
  | aborted
  deriving DecidableEq, Repr

namespace Outcome

def exitCode : Outcome → Nat
  | success _ | help => 0
  | failure _ => 1
  | misuse => 2
  | aborted => 101

def output : Outcome → String
  | success output => output
  | help => usage
  | _ => ""

def errorOutput : Outcome → String
  | failure message => message ++ "\n"
  | misuse => usage
  | _ => ""

end Outcome

/-- The settings of a command: those of its config file, with the namespace and the roots that it is
given. -/
def settings (disk : Disk) (o : Options) : Except String Settings :=
  let base : Except String Settings := match o.config with
    | none => .ok {}
    | some file =>
      match Settings.read disk file with
      | .ok s => .ok s
      | .error e => .error ("Error loading config '" ++ file.text ++ "': " ++ e.message)
  base.map fun s => { s with ns := o.ns.getD s.ns, roots := s.roots ++ o.roots }

/-- The value in the text of a scope, which is JSON or YAML. The message names the format; it stands for what the
decoder says about a text that it does not read. -/
def scopeValue (file : Path) (text : String) : Except String Value :=
  if file.extension?.bind OsString.text? = some "json" then
    match (Json.parse text).bind (Json.toValue Json.maxDepth) with
    | some v => .ok v
    | none => .error "malformed JSON"
  else
    match Yaml.parseValue text with
    | some v => .ok v
    | none => .error "malformed YAML"

/-- The calling scope in a file; `null` is an empty scope. -/
def readScope (disk : Disk) (file : Path) : Except String (Fields Value) :=
  match disk.read file with
  | .error e => .error e.message
  | .ok text =>
    match scopeValue file text with
    | .error message => .error message
    | .ok (.map fields) => .ok fields
    | .ok (.scalar .null) => .ok []
    | .ok _ => .error "scope must be a map"

def scope (disk : Disk) (o : Options) : Except String (Option (Fields Value)) :=
  match o.scope with
  | none => .ok none
  | some file =>
    match readScope disk file with
    | .ok fields => .ok (some fields)
    | .error message => .error ("Error loading scope '" ++ file.text ++ "': " ++ message)

/-- The template of a command, and the name that stands for it in reports. The standard input may be no
text. -/
def template (disk : Disk) (stdin : Option String) (o : Options) : Except String (String × String) :=
  match o.input with
  | some file =>
    match disk.read file with
    | .ok text => .ok (text, file.text)
    | .error e => .error ("Error reading file '" ++ file.text ++ "': " ++ e.message)
  | none =>
    match stdin with
    | some text => .ok (text, "<stdin>")
    | none => .error ("Error reading from stdin: " ++ AccessError.notText.message)

/-- What is printed of a call: the call, and its variables in the scope if there is one. -/
def entry (scope : Option (Fields Value)) (call : IncludeCall) : Except String Value :=
  match scope with
  | none => .ok (.map call.fields)
  | some fields =>
    match call.evaluate fields with
    | .ok v => .ok (.map (call.fields ++ [("evaluated", v)]))
    | .error e => .error ("Error evaluating " ++ call.templateId ++ ": " ++ e.message)

def list (disk : Disk) (s : Settings) : Outcome :=
  match ((Compiler.ofSettings s).catalog.names disk).1 with
  | .ok names => .success (String.join (names.map (· ++ "\n")))
  | .error e => .failure ("Error: " ++ e.message)

def compile (disk : Disk) (s : Settings) (scope : Option (Fields Value)) (source name : String) : Outcome :=
  match compileTemplate disk source s with
  | .error e =>
    match e.report source name with
    | some report => .failure report
    | none => .aborted
  | .ok calls =>
    match calls.mapM (entry scope) with
    | .ok entries => .success ((Value.list entries).toJson ++ "\n")
    | .error message => .failure message

def execute (disk : Disk) (stdin : Option String) (o : Options) : Outcome :=
  match settings disk o with
  | .error message => .failure message
  | .ok s =>
    if o.list then list disk s
    else
      match scope disk o with
      | .error message => .failure message
      | .ok scope =>
        match template disk stdin o with
        | .error message => .failure message
        | .ok (source, name) => compile disk s scope source name

def run (disk : Disk) (stdin : Option String) (args : List String) : Outcome :=
  match Request.ofArguments args with
  | .run o => execute disk stdin o
  | .help => .help
  | .misuse => .misuse

/-- The paths that a command reads when the settings can be read from the disk, each with all that is
below it. -/
def paths (disk : Disk) (o : Options) : List Path :=
  let roots := match settings disk o with
    | .ok s => s.roots
    | .error _ => []
  o.config.toList ++ o.scope.toList ++ o.input.toList ++ roots

end CommandLine

end Inclusion
