import Inclusion.Disk.Path
import Inclusion.Value
/-!
# Search paths

The root directories in which the templates of a namespace are looked for, in the order of the search.
-/

namespace Inclusion

abbrev Loader := Fields (List Path)

namespace Loader

def roots (loader : Loader) (ns : String) : List Path :=
  (Fields.get? ns loader).getD []

/-- Adds a root after the others. -/
def add (ns : String) (root : Path) (loader : Loader) : Loader :=
  Fields.put ns (loader.roots ns ++ [root]) loader

/-- Adds a root before the others. -/
def prepend (ns : String) (root : Path) (loader : Loader) : Loader :=
  Fields.put ns (root :: loader.roots ns) loader

def namespaces (loader : Loader) : List String :=
  (Fields.keys loader).mergeSort (· ≤ ·)

theorem roots_add (ns other : String) (root : Path) (loader : Loader) :
    (loader.add ns root).roots other =
      if other = ns then loader.roots ns ++ [root] else loader.roots other := by
  by_cases h : other = ns <;> simp [roots, add, Fields.get?_put, h]

theorem roots_prepend (ns other : String) (root : Path) (loader : Loader) :
    (loader.prepend ns root).roots other =
      if other = ns then root :: loader.roots ns else loader.roots other := by
  by_cases h : other = ns <;> simp [roots, prepend, Fields.get?_put, h]

end Loader

/-- Where the roots of a namespace come from. -/
inductive SearchPaths
  | loader (l : Loader)
  /-- The same roots for every namespace. -/
  | fixed (roots : List Path)
  deriving Repr

def SearchPaths.roots (ns : String) : SearchPaths → List Path
  | loader l => l.roots ns
  | fixed roots => roots

end Inclusion
