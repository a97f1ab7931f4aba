import Inclusion.Text.OsString
import Inclusion.Yaml.Node
import Inclusion.Yaml.Scalar
/-!
# Values from YAML documents

The anchors of a document are numbered in the order in which they stand, each by how many names were in
use before it; an alias leads to the last node with the number of its name. Lists and mappings nest at most
128 deep, aliases followed, and no more aliases are followed than a hundred for each part of the document.
-/

namespace Inclusion

namespace Yaml

/-! ### Numbering anchors -/

/-- The numbers of the names that are in use. -/
abbrev Numbering := List (List Char × Nat)

namespace Numbering

/-- Gives a name the next number; a name that is in use gets a new one. -/
def put (name : List Char) (number : Nat) : Numbering → Numbering
  | [] => [(name, number)]
  | (n, k) :: rest => if n = name then (n, number) :: rest else (n, k) :: put name number rest

def find? (name : List Char) (numbering : Numbering) : Option Nat :=
  (List.find? (fun n => n.1 = name) numbering).map Prod.snd

end Numbering

namespace Properties

def number (p : Properties (List Char)) (numbering : Numbering) : Properties Nat × Numbering :=
  match p.anchor with
  | none => (⟨none, p.tag⟩, numbering)
  | some name => (⟨some numbering.length, p.tag⟩, Numbering.put name numbering.length numbering)

end Properties

namespace Node

mutual

/-- Numbers the anchors and aliases of a node, if every alias has an anchor before it. -/
def number (numbering : Numbering) : NamedNode → Option (Node Nat × Numbering)
  | .alias name => (Numbering.find? name numbering).map fun n => (.alias n, numbering)
  | .scalar p plain text =>
    let (p, numbering) := p.number numbering
    some (.scalar p plain text, numbering)
  | .list p items =>
    let (p, numbering) := p.number numbering
    (numberItems numbering items).map fun (items, numbering) => (.list p items, numbering)
  | .mapping p entries =>
    let (p, numbering) := p.number numbering
    (numberEntries numbering entries).map fun (entries, numbering) => (.mapping p entries, numbering)
termination_by structural n => n

def numberItems (numbering : Numbering) : List NamedNode → Option (List (Node Nat) × Numbering)
  | [] => some ([], numbering)
  | item :: rest =>
    match number numbering item with
    | none => none
    | some (item, numbering) =>
      (numberItems numbering rest).map fun (items, numbering) => (item :: items, numbering)
termination_by structural items => items

def numberEntries (numbering : Numbering) :
    List (NamedNode × NamedNode) → Option (List (Node Nat × Node Nat) × Numbering)
  | [] => some ([], numbering)
  | (key, value) :: rest =>
    match number numbering key with
    | none => none
    | some (key, numbering) =>
      match number numbering value with
      | none => none
      | some (value, numbering) =>
        (numberEntries numbering rest).map fun (entries, numbering) => ((key, value) :: entries, numbering)
termination_by structural entries => entries

end

mutual

/-- The nodes with anchors in the order in which they start. -/
def anchored : Node Nat → List (Nat × Node Nat)
  | .alias _ => []
  | .scalar p plain text => (p.anchor.map fun n => (n, .scalar p plain text)).toList
  | .list p items => (p.anchor.map fun n => (n, .list p items)).toList ++ anchoredItems items
  | .mapping p entries => (p.anchor.map fun n => (n, .mapping p entries)).toList ++ anchoredEntries entries
termination_by structural n => n

def anchoredItems : List (Node Nat) → List (Nat × Node Nat)
  | [] => []
  | item :: rest => anchored item ++ anchoredItems rest
termination_by structural items => items

def anchoredEntries : List (Node Nat × Node Nat) → List (Nat × Node Nat)
  | [] => []
  | (key, value) :: rest => anchored key ++ anchored value ++ anchoredEntries rest
termination_by structural entries => entries

end

mutual

/-- How many parts a node has: scalars, aliases, and the starts and ends of lists and mappings. -/
def size : Node Nat → Nat
  | .alias _ => 1
  | .scalar _ _ _ => 1
  | .list _ items => sizeItems items + 2
  | .mapping _ entries => sizeEntries entries + 2
termination_by structural n => n

def sizeItems : List (Node Nat) → Nat
  | [] => 0
  | item :: rest => size item + sizeItems rest
termination_by structural items => items

def sizeEntries : List (Node Nat × Node Nat) → Nat
  | [] => 0
  | (key, value) :: rest => size key + size value + sizeEntries rest
termination_by structural entries => entries

end

end Node

/-! ### Decoding -/

structure Document where
  root : Node Nat
  /-- The nodes with anchors, the last one first. -/
  targets : List (Nat × Node Nat)

/-- Something that is decoded, counting how many more aliases can be followed. -/
abbrev Decode (α : Type) := StateT Nat Option α

namespace Document

/-- How deep lists and mappings can nest. -/
def maxDepth : Nat := 128

/-- The document that a text holds, if it holds one. -/
def parse (text : String) : Option (Option Document) :=
  match NamedNode.parse text with
  | none => none
  | some none => some none
  | some (some node) =>
    (Node.number [] node).map fun (root, _) => some ⟨root, root.anchored.reverse⟩

def decode {α : Type} (d : Document) (read : Node Nat → Decode α) : Option α :=
  ((read d.root).run (d.root.size * 100)).map Prod.fst

/-- The node itself, or the one that an alias leads to. -/
def follow (d : Document) : Node Nat → Decode (Node Nat)
  | .alias number => do
    match ← get with
    | 0 => failure
    | left + 1 =>
      set left
      match d.targets.find? fun t => t.1 = number with
      | some (_, node) => return node
      | none => failure
  | node => return node

/-- The text of a scalar, whatever it stands for. -/
def text (d : Document) (node : Node Nat) : Decode String := do
  match ← d.follow node with
  | .scalar _ _ text => return String.ofList text
  | _ => failure

/-- The tag is one of the writer's own: it starts with an exclamation mark, and its bytes are those of a text. -/
def isOwnTag (tag : Option (List Char)) : Bool :=
  tag.any fun t => t.head? = some '!' && (OsString.text? (t.map Char.toUInt8)).isSome

/-- The value of a node that nests at most `depth` deep and has no tag of the writer's own. Of a key that
occurs again the last value counts. -/
def value (d : Document) (depth : Nat) (node : Node Nat) : Decode Value := do
  match ← d.follow node with
  | .alias _ => failure
  | .scalar p plain text =>
    if isOwnTag p.tag then failure
    else
      let read := match p.tag with
        | some tag => taggedScalar tag plain text
        | none => if plain then plainScalar text else some (.string (String.ofList text))
      match read with
      | some s => return .scalar s
      | none => failure
  | .list p items =>
    if isOwnTag p.tag then failure
    else
      match depth with
      | 0 => failure
      | depth + 1 => return .list (← items.mapM fun item => value d depth item)
  | .mapping p entries =>
    if isOwnTag p.tag then failure
    else
      match depth with
      | 0 => failure
      | depth + 1 =>
        let fields ← entries.foldlM (fun fields entry => do
          let key ← d.text entry.1
          return Fields.put key (← value d depth entry.2) fields) []
        return .map fields

/-- A node, or nothing where a plain scalar is empty or stands for `null`. -/
def optional {α : Type} (d : Document) (read : Node Nat → Decode α) (node : Node Nat) :
    Decode (Option α) := do
  let node ← d.follow node
  match node with
  | .scalar p true text =>
    match p.tag with
    | some tag =>
      if String.ofList tag = "tag:yaml.org,2002:null" then
        if isNull text then return none else failure
      else return some (← read node)
    | none => if text.isEmpty || isNull text then return none else return some (← read node)
  | _ => return some (← read node)

/-- An empty plain scalar; it can stand for an empty list or mapping. -/
def isEmptyScalar : Node Nat → Bool
  | .scalar _ true [] => true
  | _ => false

/-- The items of a list, each read as one that nests at most `depth - 1` deep. -/
def items {α : Type} (d : Document) (depth : Nat) (read : (depth : Nat) → Node Nat → Decode α)
    (node : Node Nat) : Decode (List α) := do
  match ← d.follow node, depth with
  | .list _ items, depth + 1 => items.mapM (read depth)
  | node, _ => if isEmptyScalar node then return [] else failure

def entries (d : Document) (node : Node Nat) : Decode (List (String × Node Nat)) := do
  match ← d.follow node with
  | .mapping _ entries => entries.mapM fun (key, value) => return (← d.text key, value)
  | node => if isEmptyScalar node then return [] else failure

/-- The fields of a mapping that nests at most `depth` deep. -/
def fields (d : Document) (depth : Nat) (node : Node Nat) : Decode (Fields Value) := do
  match depth, ← d.entries node with
  | _, [] => return []
  | 0, _ => failure
  | depth + 1, entries =>
    entries.foldlM (fun fields entry => return Fields.put entry.1 (← d.value depth entry.2) fields) []

/-- The only value of a key, if the key does not occur twice. -/
def member? (key : String) (entries : List (String × Node Nat)) : Decode (Option (Node Nat)) :=
  match entries.filter fun e => e.1 = key with
  | [] => return none
  | [e] => return some e.2
  | _ => failure

/-- The value of a key that can be left out. -/
def optionalMember {α : Type} (d : Document) (read : Node Nat → Decode α) (key : String)
    (entries : List (String × Node Nat)) : Decode (Option α) := do
  match ← member? key entries with
  | none => return none
  | some node => d.optional read node

end Document

/-- The value that a text holds; a text without a document is `null`. -/
def parseValue (text : String) : Option Value :=
  match Document.parse text with
  | none => none
  | some none => some .null
  | some (some d) => d.decode (d.value Document.maxDepth)

end Yaml

end Inclusion
