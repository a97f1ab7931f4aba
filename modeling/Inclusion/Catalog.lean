import Inclusion.Disk
import Inclusion.Settings
/-!
# The catalog of components

A component is a template under one of the roots of a namespace. The catalog finds all of them at once
when it is first asked for one, and keeps what it found: templates that are added later are not seen. A
search that fails leaves the catalog as it was, so that the next question searches again.
-/

namespace Inclusion

/-- A component: its name, the id under which its template is included, and the path of its config
document, which need not exist. -/
structure Component where
  name : String
  templateId : String
  configPath : Path
  deriving DecidableEq, Repr

inductive CatalogError
  | noRoots (ns : String)
  | unknown (name : String)
  | duplicate (name first second : String)
  | unreadable (root : Path) (e : AccessError)
  deriving DecidableEq, Repr

def CatalogError.message : CatalogError → String
  | noRoots ns => "there are no registered paths for namespace '" ++ ns ++ "'"
  | unknown name => "no component named '" ++ name ++ "' found"
  | duplicate name first second => "duplicate component '" ++ name ++ "': " ++ first ++ " and " ++ second
  | unreadable root e =>
    "failed to scan " ++ root.text ++ ": IO error for operation on " ++ root.text ++ ": " ++ e.message

/-- The name of a template, if the name of its file ends in a dot and the extension, and does not only
consist of that. -/
def templateName? (extension file : String) : Option String :=
  let suffix := '.' :: extension.toList
  let cs := file.toList
  if suffix.isSuffixOf cs && suffix.length < cs.length then
    some (String.ofList (cs.take (cs.length - suffix.length)))
  else none

namespace Component

/-- The component whose template is the file at `path` under `root`. A file whose name is no text is no template;
names of directories that are no text are displayed in the id. -/
def ofFile (s : Settings) (root path : Path) : Option Component :=
  match path.fileName?.bind OsString.text? with
  | none => none
  | some file =>
    (templateName? s.templateExtension file).map fun name =>
      let steps := (path.components.drop root.components.length).map fun step => step.bytes.display
      { name := name
        templateId := "@" ++ s.ns ++ "/" ++ "/".intercalate steps
        configPath := path.withFileName (OsString.ofText (name ++ ".config." ++ s.configExtension)) }

end Component

abbrev Index := Fields Component

namespace Index

/-- Adds a component. One with the same name is replaced or reported. -/
def add (policy : DuplicatePolicy) (index : Index) (c : Component) : Except CatalogError Index :=
  match policy, Fields.get? c.name index with
  | .reject, some old => .error (.duplicate c.name old.templateId c.templateId)
  | _, _ => .ok (Fields.put c.name c index)

/-- The components under a root, in the order of their paths. -/
def componentsUnder (s : Settings) (disk : Disk) (root : Path) : Except CatalogError (List Component) :=
  match disk.lookup root with
  | .ok t => .ok ((t.files root).filterMap (Component.ofFile s root))
  | .error e => .error (.unreadable root e)

def addRoot (s : Settings) (disk : Disk) (index : Index) (root : Path) : Except CatalogError Index :=
  match componentsUnder s disk root with
  | .ok components => components.foldlM (add s.duplicates) index
  | .error e => .error e

def build (s : Settings) (disk : Disk) (roots : List Path) : Except CatalogError Index :=
  if roots.isEmpty then .error (.noRoots s.ns) else roots.foldlM (addRoot s disk) []

end Index

/-- The components of a namespace, and what has been found of them so far. -/
structure Catalog where
  settings : Settings
  paths : SearchPaths
  index : Option Index := none
  /-- How many searches were completed. -/
  builds : Nat := 0
  deriving Repr

namespace Catalog

/-- A catalog that holds components without a search. Of two with the same name the last one counts. -/
def ofComponents (components : List Component) : Catalog where
  settings := {}
  paths := .fixed []
  index := some (components.foldl (fun index c => Fields.put c.name c index) [])

def isBuilt (c : Catalog) : Bool :=
  c.index.isSome

/-- The index, which is built unless it is there, and the catalog that holds it. -/
def getIndex (disk : Disk) (c : Catalog) : Except CatalogError Index × Catalog :=
  match c.index with
  | some index => (.ok index, c)
  | none =>
    match Index.build c.settings disk (c.paths.roots c.settings.ns) with
    | .ok index => (.ok index, { c with index := some index, builds := c.builds + 1 })
    | .error e => (.error e, c)

def resolve (disk : Disk) (name : String) (c : Catalog) : Except CatalogError Component × Catalog :=
  match c.getIndex disk with
  | (.ok index, c) =>
    (match Fields.get? name index with
      | some found => .ok found
      | none => .error (.unknown name), c)
  | (.error e, c) => (.error e, c)

def contains (disk : Disk) (name : String) (c : Catalog) : Except CatalogError Bool × Catalog :=
  match c.getIndex disk with
  | (.ok index, c) => (.ok (Fields.get? name index).isSome, c)
  | (.error e, c) => (.error e, c)

/-- The names of all components, in order. -/
def names (disk : Disk) (c : Catalog) : Except CatalogError (List String) × Catalog :=
  match c.getIndex disk with
  | (.ok index, c) => (.ok ((Fields.keys index).mergeSort (· ≤ ·)), c)
  | (.error e, c) => (.error e, c)

end Catalog

end Inclusion
