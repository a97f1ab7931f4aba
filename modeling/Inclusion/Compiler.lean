import Inclusion.CompileError
import Inclusion.Composition
import Inclusion.Directive.Reader
import Inclusion.Reference
import Inclusion.Template
/-!
# Compiling directives

A compiler turns directives into include calls. It knows the tags that make a block of a template a
directive, and it remembers the catalog of the components and the configs that it has read. Each operation
gives its answer together with the compiler as it is afterwards.
-/

namespace Inclusion

structure Compiler where
  catalog : Catalog
  configs : ConfigStore
  tags : List String
  deriving Repr

/-- What is known about a directive before its variables are composed. -/
structure Resolution where
  reference : Reference
  component : Component
  /-- The context of the component; it is not read if the directive has no use for it. -/
  context : Option Context
  deriving Repr

namespace Resolution

/-- The call that includes the component of the directive. -/
def call (r : Resolution) (d : Directive) : IncludeCall where
  templateId := r.component.templateId
  vars := compose (layers r.context (d.vars.map Located.value) d.only)
  only := d.only
  ignoreMissing := d.ignoreMissing
  span := d.span

end Resolution

def Directive.reference (d : Directive) : Except Fault Reference :=
  match d.component.value.constant? with
  | none => .error ⟨.notConstant, d.component.span⟩
  | some text =>
    match Reference.parse text with
    | none => .error ⟨.noName text, d.component.span⟩
    | some r => .ok r

/-- The directive isolates its component and gives it no variables, so it needs no context. -/
def Directive.skipsContext (d : Directive) : Bool :=
  d.only && d.vars.isNone

/-- The first word of a directive, bare or in a block, and its place. -/
def leadingTag (offset : Nat) (cs : List Char) : String × Span :=
  let body := trimStart cs
  let body := match body with
    | '{' :: '%' :: '-' :: rest | '{' :: '%' :: '~' :: rest | '{' :: '%' :: rest => trimStart rest
    | _ => body
  let word := body.takeWhile isWordChar
  let start := offset + (byteLength cs - byteLength body)
  (String.ofList word, ⟨start, start + byteLength word⟩)

namespace Compiler

/-- The tag that every compiler knows. -/
def renderTag : String := "render"

def new (paths : SearchPaths) (s : Settings) : Compiler where
  catalog := { settings := s, paths := paths }
  configs := .new s.cacheConfigs
  tags := [renderTag]

/-- A compiler that looks for components in the roots of its settings. -/
def ofSettings (s : Settings) : Compiler :=
  new (.loader s.loader) s

def register (tag : String) (c : Compiler) : Compiler :=
  if c.tags.contains tag then c else { c with tags := (tag :: c.tags).mergeSort (· ≤ ·) }

/-- Looks up the component of a directive and reads the context of its variant. -/
def resolve (disk : Disk) (d : Directive) (c : Compiler) : Except CompileError Resolution × Compiler :=
  match d.reference with
  | .error f => (.error (.malformed [f]), c)
  | .ok reference =>
    match c.catalog.resolve disk reference.component with
    | (.error e, catalog) => (.error (.catalog e (some d.span)), { c with catalog := catalog })
    | (.ok component, catalog) =>
      let c := { c with catalog := catalog }
      if d.skipsContext then (.ok ⟨reference, component, none⟩, c)
      else
        match c.configs.context disk component.configPath reference.variant with
        | (.error e, configs) => (.error (.config e (some d.span)), { c with configs := configs })
        | (.ok context, configs) => (.ok ⟨reference, component, some context⟩, { c with configs := configs })

/-- Compiles the directive that a text is. The text begins at `offset` in its template. -/
def compileAt (disk : Disk) (offset : Nat) (cs : List Char) (c : Compiler) :
    Except CompileError IncludeCall × Compiler :=
  let (tag, span) := leadingTag offset cs
  if c.tags.contains tag then
    match Directive.parse tag offset cs with
    | .error f => (.error (.malformed [f]), c)
    | .ok d =>
      match c.resolve disk d with
      | (.ok r, c) => (.ok (r.call d), c)
      | (.error e, c) => (.error e, c)
  else (.error (.unknownTag tag span), c)

/-- Compiles a directive on its own, bare or as a block. -/
def compileDirective (disk : Disk) (source : String) (c : Compiler) :
    Except CompileError IncludeCall × Compiler :=
  c.compileAt disk 0 source.toList

/-- Compiles blocks in order, and stops at the first one that does not compile. -/
def compileBlocks (disk : Disk) : List Template.Block → Compiler → Except CompileError (List IncludeCall) × Compiler
  | [], c => (.ok [], c)
  | b :: rest, c =>
    match c.compileAt disk b.start b.text with
    | (.error e, c) => (.error e, c)
    | (.ok call, c) =>
      match compileBlocks disk rest c with
      | (.ok calls, c) => (.ok (call :: calls), c)
      | (.error e, c) => (.error e, c)

def compileTemplate (disk : Disk) (source : String) (c : Compiler) :
    Except CompileError (List IncludeCall) × Compiler :=
  compileBlocks disk (Template.blocks c.tags source.toList) c

end Compiler

/-- Compiles the directives of a template with a compiler of its own. -/
def compileTemplate (disk : Disk) (source : String) (s : Settings) : Except CompileError (List IncludeCall) :=
  ((Compiler.ofSettings s).compileTemplate disk source).1

end Inclusion
