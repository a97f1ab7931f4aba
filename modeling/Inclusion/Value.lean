import Inclusion.Number.Text
/-!
# Values

A value is what a document holds and what an expression evaluates to. The fields of a map are a list of
pairs: the keys keep the order in which they were first put, and putting a key again replaces its value
without moving it. Two facts are enough to work with fields: what `get?` finds after `put`, and which
keys there are then.
-/

namespace Inclusion

/-- A whole number or a finite number with a fraction. -/
inductive Number
  | int (n : Int)
  | float (x : Binary64)
  deriving DecidableEq, Repr

/-- The text of a number in data, also where the number becomes a string. -/
def Number.text : Number → String
  | .int n => toString n
  | .float x => String.ofList (FloatFormat.data.text x)

/-- Keys with values in order. The keys are texts, unless another type of keys is given. -/
abbrev Fields (α : Type) (κ : Type := String) := List (κ × α)

namespace Fields

variable {α κ : Type}

def keys (fields : Fields α κ) : List κ :=
  fields.map Prod.fst

variable [DecidableEq κ]

/-- The value at the key, the first one if the key occurs more than once. -/
def get? (key : κ) : Fields α κ → Option α
  | [] => none
  | (k, v) :: rest => if k = key then some v else get? key rest

/-- Replaces the value at the key, or adds the key at the end. -/
def put (key : κ) (value : α) : Fields α κ → Fields α κ
  | [] => [(key, value)]
  | (k, v) :: rest => if k = key then (k, value) :: rest else (k, v) :: put key value rest

/-- Puts all fields of `overlay` in order. -/
def overlay (base overlay : Fields α) : Fields α :=
  overlay.foldl (fun fields f => put f.1 f.2 fields) base

/-- Adds the fields of `extra` whose keys are not there yet. -/
def fill (base extra : Fields α) : Fields α :=
  extra.foldl (fun fields f => if fields.keys.contains f.1 then fields else put f.1 f.2 fields) base

theorem get?_put (key k : κ) (value : α) (fields : Fields α κ) :
    (put key value fields).get? k = if k = key then some value else fields.get? k := by
  induction fields with
  | nil => simp [put, get?, eq_comm]
  | cons f rest ih =>
    obtain ⟨j, v⟩ := f
    by_cases hj : j = key
    · by_cases h : key = k <;> simp [put, get?, hj, h, eq_comm]
    · by_cases h : j = k
      · simp [put, get?, h ▸ hj, h]
      · simp [put, get?, hj, h, ih]

theorem keys_put (key : κ) (value : α) (fields : Fields α κ) :
    (put key value fields).keys = if key ∈ fields.keys then fields.keys else fields.keys ++ [key] := by
  induction fields with
  | nil => simp [put, keys]
  | cons f rest ih =>
    obtain ⟨j, v⟩ := f
    simp only [keys] at ih
    by_cases hj : j = key
    · simp [put, keys, hj]
    · have hk : key ≠ j := fun h => hj h.symm
      by_cases hm : key ∈ rest.map Prod.fst <;> simp_all [put, keys]

end Fields

/-- A value without parts. -/
inductive Scalar
  | null
  | bool (b : Bool)
  | number (n : Number)
  | string (s : String)
  deriving DecidableEq, Repr, Inhabited

/-- What a document holds and what an expression evaluates to. -/
inductive Value
  | scalar (s : Scalar)
  | list (items : List Value)
  | map (fields : List (String × Value))
  deriving Repr, Inhabited

/-- A number with a fraction; an infinite one is no value and becomes `null`. -/
def Scalar.ofFloat (x : Binary64) : Scalar :=
  if x.isFinite then number (.float x) else null

namespace Value

def null : Value := scalar .null

def bool (b : Bool) : Value := scalar (.bool b)

def string (s : String) : Value := scalar (.string s)

def int (n : Int) : Value := scalar (.number (.int n))

def kind : Value → String
  | scalar .null => "null"
  | scalar (.bool _) => "boolean"
  | scalar (.number _) => "number"
  | scalar (.string _) => "string"
  | list _ => "list"
  | map _ => "map"

end Value

end Inclusion
