import Inclusion.Value
/-!
# Expressions

What a directive says about its component and its variables. The reader of directives makes literals,
names, maps, lists and concatenations; composing the variables of an include call adds the calling scope
and the merge of two maps.
-/

namespace Inclusion

inductive Expr
  | literal (s : Scalar)
  /-- A name with the segments that follow its dots. -/
  | name (path : List String)
  /-- Entries in the order in which they are written; a key can occur more than once. -/
  | map (entries : List (String × Expr))
  | list (items : List Expr)
  | concat (left right : Expr)
  /-- The calling scope. -/
  | ambient
  /-- The fields of `base`, with the fields of `overlay` put over them. -/
  | merge (base overlay : Expr)
  deriving Repr, Inhabited

namespace Expr

def emptyMap : Expr := map []

def isEmptyMap : Expr → Bool
  | map [] => true
  | _ => false

/-- The string that the expression stands for in every scope, if it is made of strings and numbers by
concatenation alone. -/
def constant? : Expr → Option String
  | literal (.string s) => some s
  | literal (.number n) => some n.text
  | concat left right =>
    match left.constant?, right.constant? with
    | some l, some r => some (l ++ r)
    | _, _ => none
  | _ => none

mutual

/-- The expression that is written as the value is. -/
def ofValue : Value → Expr
  | .scalar s => literal s
  | .list items => list (ofItems items)
  | .map fields => map (ofFields fields)
termination_by structural v => v

def ofItems : List Value → List Expr
  | [] => []
  | v :: rest => ofValue v :: ofItems rest
termination_by structural vs => vs

def ofFields : List (String × Value) → List (String × Expr)
  | [] => []
  | (key, v) :: rest => (key, ofValue v) :: ofFields rest
termination_by structural fs => fs

end

theorem ofItems_eq_map (items : List Value) : ofItems items = items.map ofValue := by
  induction items with
  | nil => rfl
  | cons v rest ih => simp [ofItems, ih]

theorem ofFields_eq_map (fields : Fields Value) :
    ofFields fields = fields.map fun f => (f.1, ofValue f.2) := by
  induction fields with
  | nil => rfl
  | cons f rest ih => simp [ofFields, ih]

end Expr

end Inclusion
