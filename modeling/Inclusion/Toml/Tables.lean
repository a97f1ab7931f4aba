import Inclusion.Toml
/-!
# Tables of TOML while they are being written

Tables are opened by headers, by the keys before the last one of a header, and by dotted keys. Which of
these opened a table decides whether a later header or dotted key can add to it, so it is remembered: a
table that no header of its own has opened yet is implicit, and one that a dotted key has opened is
dotted. An array of tables is added to at its last table.
-/

namespace Inclusion

namespace Toml

/-- What a key of a table that is being written leads to. -/
inductive Node
  | value (t : Toml)
  | table (implicit dotted : Bool) (entries : List (String × Node))
  | tables (elements : List (List (String × Node)))
  deriving Inhabited

mutual

/-- The finished tree. Tables have the same form inside and outside braces as they were written in. -/
def Node.toToml (inline : Bool) : Node → Toml
  | .value t => t
  | .table _ _ entries => .table inline (Node.toEntries inline entries)
  | .tables elements => .array (Node.toTables inline elements)
termination_by structural n => n

def Node.toEntries (inline : Bool) : List (String × Node) → List (String × Toml)
  | [] => []
  | (key, n) :: rest => (key, n.toToml inline) :: Node.toEntries inline rest
termination_by structural ns => ns

def Node.toTables (inline : Bool) : List (List (String × Node)) → List Toml
  | [] => []
  | entries :: rest => .table inline (Node.toEntries inline entries) :: Node.toTables inline rest
termination_by structural ns => ns

end

/-- Changes the table at the end of a path, and opens the tables on the way. The change is told whether
the table is dotted. A path of a dotted key (`dotted`) does not lead through a table that a header has
opened. -/
def descend {β : Type} (dotted : Bool) (change : Bool → Fields Node → Option (Fields Node × β)) :
    (path : List String) → (isDotted : Bool) → Fields Node → Option (Fields Node × β)
  | [], isDotted, entries => change isDotted entries
  | key :: path, _, entries =>
    match Fields.get? key entries with
    | none =>
      (descend dotted change path dotted []).map fun (sub, b) =>
        (Fields.put key (.table true dotted sub) entries, b)
    | some (.value _) => none
    | some (.table implicit isDotted sub) =>
      if dotted && !implicit then none
      else
        (descend dotted change path isDotted sub).map fun (sub, b) =>
          (Fields.put key (.table implicit isDotted sub) entries, b)
    | some (.tables elements) =>
      match elements.getLast? with
      | none => none
      | some last =>
        (descend dotted change path false last).map fun (last, b) =>
          (Fields.put key (.tables (elements.dropLast ++ [last])) entries, b)

/-- Adds the value of a key, dotted perhaps, to a table. A key that leads through tables has to end in a
dotted one, and no key is given twice. -/
def addKey (path : List String) (key : String) (t : Toml) (entries : Fields Node) : Option (Fields Node) :=
  let add (isDotted : Bool) (entries : Fields Node) : Option (Fields Node × Unit) :=
    if isDotted = path.isEmpty then none
    else if (Fields.get? key entries).isSome then none
    else some (Fields.put key (.value t) entries, ())
  (descend true add path false entries).map Prod.fst

/-- A document that is being written: the finished part, and the table that is open. -/
structure Draft where
  root : Fields Node := []
  /-- The path of the open table; it is empty for the top of the document. -/
  path : List String := []
  /-- The open table is an element of an array of tables. -/
  element : Bool := false
  entries : Fields Node := []

namespace Draft

/-- The last key of a path, and the keys before it. -/
def splitLast (path : List String) : Option (List String × String) :=
  path.getLast?.map fun last => (path.dropLast, last)

/-- Closes the open table: it takes its place in the finished part. -/
def close (d : Draft) : Option (Fields Node) :=
  match splitLast d.path with
  | none => some d.entries
  | some (parents, key) =>
    let place (_ : Bool) (entries : Fields Node) : Option (Fields Node × Unit) :=
      if d.element then
        match Fields.get? key entries with
        | none => some (Fields.put key (.tables [d.entries]) entries, ())
        | some (.tables elements) => some (Fields.put key (.tables (elements ++ [d.entries])) entries, ())
        | some _ => none
      else some (Fields.put key (.table false false d.entries) entries, ())
    (descend false place parents false d.root).map Prod.fst

/-- Opens the table of a header. A table that was only implied so far keeps its entries and moves to the
end of its parent. -/
def openTable (path : List String) (d : Draft) : Option Draft :=
  match splitLast path, d.close with
  | some (parents, key), some root =>
    let take (_ : Bool) (entries : Fields Node) : Option (Fields Node × Fields Node) :=
      match Fields.get? key entries with
      | none => some (entries, [])
      | some (.table true false sub) => some (entries.filter fun e => e.1 ≠ key, sub)
      | some _ => none
    (descend false take parents false root).map fun (root, entries) => ⟨root, path, false, entries⟩
  | _, _ => none

/-- Opens a new element of the array of tables of a header. -/
def openElement (path : List String) (d : Draft) : Option Draft :=
  match splitLast path, d.close with
  | some (parents, key), some root =>
    let look (_ : Bool) (entries : Fields Node) : Option (Fields Node × Unit) :=
      match Fields.get? key entries with
      | none | some (.tables _) => some (entries, ())
      | some _ => none
    (descend false look parents false root).map fun (root, _) => ⟨root, path, true, []⟩
  | _, _ => none

/-- Adds the value of a key to the open table. -/
def add (path : List String) (key : String) (t : Toml) (d : Draft) : Option Draft :=
  (addKey path key t d.entries).map fun entries => { d with entries := entries }

def finish (d : Draft) : Option Toml :=
  d.close.map fun entries => .table false (Node.toEntries false entries)

end Draft

end Toml

end Inclusion
