import Inclusion.Yaml.Token.Lexer
/-!
# YAML documents

A document is a tree of scalars, lists and mappings in which an alias stands for a node that an anchor
names. What is left out where a node is expected is an empty plain scalar. A text holds at most one
document.
-/

namespace Inclusion

namespace Yaml

/-- What a node says about itself: its anchor and its tag. -/
structure Properties (α : Type) where
  anchor : Option α := none
  tag : Option (List Char) := none
  deriving Repr, DecidableEq

/-- What is left of the properties where the node is a scalar that is written: a tag that is only an
exclamation mark says nothing about it. -/
def Properties.ofScalar {α : Type} (p : Properties α) : Properties α :=
  if p.tag = some ['!'] then { p with tag := none } else p

/-- A node. Anchors and aliases are of type `α`: names where they are written, and numbers later. -/
inductive Node (α : Type)
  | alias (target : α)
  | scalar (properties : Properties α) (plain : Bool) (text : List Char)
  | list (properties : Properties α) (items : List (Node α))
  | mapping (properties : Properties α) (entries : List (Node α × Node α))
  deriving Repr

/-- A node whose anchors and aliases are names. -/
abbrev NamedNode := Node (List Char)

/-- What stands where a node is left out. -/
def NamedNode.empty : NamedNode := .scalar {} true []

namespace Reader

/-- The prefixes that the handles of tags stand for. -/
abbrev Handles := List (List Char × List Char)

/-- The tag that a handle and a suffix write. -/
def expandTag (handles : Handles) (handle suffix : List Char) : Option (List Char) :=
  if handle.isEmpty then some suffix
  else (handles.find? fun h => h.1 = handle).map fun h => h.2 ++ suffix

/-- An anchor and a tag before a node, in any order. -/
def readProperties (handles : Handles) : List Token → Option (Properties (List Char) × List Token)
  | .anchor name :: .tag handle suffix :: rest | .tag handle suffix :: .anchor name :: rest =>
    (expandTag handles handle suffix).map fun tag => (⟨some name, some tag⟩, rest)
  | .anchor name :: rest => some (⟨some name, none⟩, rest)
  | .tag handle suffix :: rest => (expandTag handles handle suffix).map fun tag => (⟨none, some tag⟩, rest)
  | rest => some ({}, rest)

/-- A node is left out before the token, in a block; `closing` says which tokens come after a node there. -/
def isLeftOut (closing : List Token) : List Token → Bool
  | [] => false
  | t :: _ => closing.contains t

mutual

/-- A node. Inside brackets (`block` is not set) there are no blocks. After a key (`afterKey`) the
entries of a list need not be indented. The fuel bounds the number of steps. -/
def readNode (handles : Handles) : (fuel : Nat) → (block afterKey : Bool) → List Token →
    Option (NamedNode × List Token)
  | 0, _, _, _ => none
  | _ + 1, _, _, .alias name :: rest => some (.alias name, rest)
  | fuel + 1, block, afterKey, ts =>
    match readProperties handles ts with
    | none => none
    | some (properties, rest) =>
      match rest with
      | .scalar plain text :: rest => some (.scalar properties.ofScalar plain text, rest)
      | .flowSequence :: rest =>
        (readFlowItems handles fuel true rest).map fun (items, after) => (.list properties items, after)
      | .flowMapping :: rest =>
        (readFlowEntries handles fuel true rest).map fun (entries, after) =>
          (.mapping properties entries, after)
      | t :: more =>
        if afterKey && t = .blockEntry then
          (readLooseItems handles fuel rest).map fun (items, after) => (.list properties items, after)
        else if block && t = .blockSequence then
          (readItems handles fuel more).map fun (items, after) => (.list properties items, after)
        else if block && t = .blockMapping then
          (readEntries handles fuel more).map fun (entries, after) => (.mapping properties entries, after)
        else if properties = {} then none
        else some (.scalar properties true [], rest)
      | [] => if properties = {} then none else some (.scalar properties true [], rest)

def readItems (handles : Handles) : (fuel : Nat) → List Token → Option (List NamedNode × List Token)
  | 0, _ => none
  | fuel + 1, ts =>
    match ts with
    | .blockEnd :: rest => some ([], rest)
    | .blockEntry :: rest =>
      match readOrLeaveOut handles fuel [.blockEntry, .blockEnd] false rest with
      | none => none
      | some (item, rest) => (readItems handles fuel rest).map fun (items, after) => (item :: items, after)
    | _ => none

/-- The entries of a list that is indented as the key before it. -/
def readLooseItems (handles : Handles) : (fuel : Nat) → List Token → Option (List NamedNode × List Token)
  | 0, _ => none
  | fuel + 1, ts =>
    match ts with
    | .blockEntry :: rest =>
      match readOrLeaveOut handles fuel [.blockEntry, .key, .value, .blockEnd] false rest with
      | none => none
      | some (item, rest) =>
        (readLooseItems handles fuel rest).map fun (items, after) => (item :: items, after)
    | rest => some ([], rest)

def readEntries (handles : Handles) : (fuel : Nat) → List Token → Option (List (NamedNode × NamedNode) × List Token)
  | 0, _ => none
  | fuel + 1, ts =>
    match ts with
    | .blockEnd :: rest => some ([], rest)
    | .key :: rest =>
      match readOrLeaveOut handles fuel [.key, .value, .blockEnd] true rest with
      | none => none
      | some (key, rest) =>
        let value := match rest with
          | .value :: rest => readOrLeaveOut handles fuel [.key, .value, .blockEnd] true rest
          | _ => some (NamedNode.empty, rest)
        match value with
        | none => none
        | some (value, rest) =>
          (readEntries handles fuel rest).map fun (entries, after) => ((key, value) :: entries, after)
    | _ => none

/-- A node in a block, unless one of the tokens `closing` shows that it is left out. -/
def readOrLeaveOut (handles : Handles) : (fuel : Nat) → (closing : List Token) → (afterKey : Bool) →
    List Token → Option (NamedNode × List Token)
  | 0, _, _, _ => none
  | fuel + 1, closing, afterKey, ts =>
    if isLeftOut closing ts then some (NamedNode.empty, ts) else readNode handles fuel true afterKey ts

/-- A node between brackets, unless a comma or the closing bracket `stop` shows that it is left out. -/
def readFlowNode (handles : Handles) : (fuel : Nat) → (stop : Token) → List Token → Option (NamedNode × List Token)
  | 0, _, _ => none
  | fuel + 1, stop, ts =>
    if isLeftOut [.flowEntry, stop] ts then some (NamedNode.empty, ts) else readNode handles fuel false false ts

/-- The items of a list in brackets; before all but the first of them there is a comma. An item that
starts with a key is a mapping with one entry. -/
def readFlowItems (handles : Handles) : (fuel : Nat) → (first : Bool) → List Token →
    Option (List NamedNode × List Token)
  | 0, _, _ => none
  | _ + 1, _, .flowSequenceEnd :: rest => some ([], rest)
  | fuel + 1, first, ts =>
    let start := if first then some ts else match ts with
      | .flowEntry :: rest => some rest
      | _ => none
    match start with
    | none => none
    | some (.flowSequenceEnd :: rest) => some ([], rest)
    | some (.key :: rest) =>
      match readSinglePair handles fuel rest with
      | none => none
      | some (item, rest) =>
        (readFlowItems handles fuel false rest).map fun (items, after) => (item :: items, after)
    | some ts =>
      match readNode handles fuel false false ts with
      | none => none
      | some (item, rest) =>
        (readFlowItems handles fuel false rest).map fun (items, after) => (item :: items, after)

/-- The only entry of a mapping that is an item of a list in brackets. If its key is left out, the token
in the key's place is lost. -/
def readSinglePair (handles : Handles) : (fuel : Nat) → List Token → Option (NamedNode × List Token)
  | 0, _ => none
  | fuel + 1, ts =>
    let key := if isLeftOut [.value, .flowEntry, .flowSequenceEnd] ts then some (NamedNode.empty, ts.drop 1)
      else readNode handles fuel false false ts
    match key with
    | none => none
    | some (key, .value :: rest) =>
      (readFlowNode handles fuel .flowSequenceEnd rest).map fun (value, after) =>
        (.mapping {} [(key, value)], after)
    | some (key, rest) => some (.mapping {} [(key, NamedNode.empty)], rest)

/-- The entries of a mapping in brackets; before all but the first of them there is a comma. What does not
start with a key is a key without a value. -/
def readFlowEntries (handles : Handles) : (fuel : Nat) → (first : Bool) → List Token →
    Option (List (NamedNode × NamedNode) × List Token)
  | 0, _, _ => none
  | _ + 1, _, .flowMappingEnd :: rest => some ([], rest)
  | fuel + 1, first, ts =>
    let start := if first then some ts else match ts with
      | .flowEntry :: rest => some rest
      | _ => none
    match start with
    | none => none
    | some (.flowMappingEnd :: rest) => some ([], rest)
    | some (.key :: rest) =>
      let key := if isLeftOut [.value, .flowEntry, .flowMappingEnd] rest then some (NamedNode.empty, rest)
        else readNode handles fuel false false rest
      let entry := match key with
        | none => none
        | some (key, .value :: rest) =>
          (readFlowNode handles fuel .flowMappingEnd rest).map fun (value, after) => ((key, value), after)
        | some (key, rest) => some ((key, NamedNode.empty), rest)
      match entry with
      | none => none
      | some (entry, rest) =>
        (readFlowEntries handles fuel false rest).map fun (entries, after) => (entry :: entries, after)
    | some ts =>
      match readNode handles fuel false false ts with
      | none => none
      | some (key, rest) =>
        (readFlowEntries handles fuel false rest).map fun (entries, after) =>
          ((key, NamedNode.empty) :: entries, after)

end

/-- The prefixes that handles have without a directive. -/
def standardHandles : Handles :=
  [(['!'], ['!']), (['!', '!'], "tag:yaml.org,2002:".toList)]

/-- The directives before a document: at most one for the version, which has to be 1.1 or 1.2, and one
for each handle. -/
def readDirectives (versioned : Bool) (handles : Handles) : List Token → Option (Handles × List Token)
  | .version major minor :: rest =>
    if versioned || major ≠ 1 || (minor ≠ 1 && minor ≠ 2) then none else readDirectives true handles rest
  | .tagPrefix handle start :: rest =>
    if handles.any fun h => h.1 = handle then none
    else readDirectives versioned (handles ++ [(handle, start)]) rest
  | rest => some (handles, rest)

/-- What comes after a document: marks of its end, and nothing else. -/
def isOver (ts : List Token) : Bool :=
  ts.all (· = .documentEnd)

def readDocument (ts : List Token) : Option (Option NamedNode) :=
  let fuel := 3 * ts.length + 3
  let body := match ts with
    | [] => some none
    | .version _ _ :: _ | .tagPrefix _ _ :: _ | .documentStart :: _ =>
      match readDirectives false [] ts with
      | some (handles, .documentStart :: rest) =>
        match rest with
        | [] | .version _ _ :: _ | .tagPrefix _ _ :: _ | .documentStart :: _ | .documentEnd :: _ =>
          some (some (NamedNode.empty, rest))
        | _ => (readNode (handles ++ standardHandles) fuel true false rest).map some
      | _ => none
    | _ => (readNode standardHandles fuel true false ts).map some
  match body with
  | none => none
  | some none => some none
  | some (some (node, rest)) => if isOver rest then some (some node) else none

end Reader

def NamedNode.parse (text : String) : Option (Option NamedNode) :=
  (Lexer.tokens text.toList).bind Reader.readDocument

end Yaml

end Inclusion
