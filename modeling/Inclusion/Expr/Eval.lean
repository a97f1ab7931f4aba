import Inclusion.Expr
/-!
# Evaluation

An expression is evaluated in a scope, the fields that the caller has at hand. Names that lead nowhere
are `null`. Evaluation fails in two places only: where a concatenation meets a list or a map, and where a
merge meets something that is no map. The left side is evaluated and converted before the right side is
looked at, so of two failures the left one is reported.
-/

namespace Inclusion

/-- Why an expression has no value. The string names the kind of value that was met. -/
inductive EvalError
  | notAMap (found : String)
  | notConcatenable (found : String)
  deriving DecidableEq, Repr

def EvalError.message : EvalError → String
  | notAMap found => "cannot merge " ++ found ++ ": expected a map"
  | notConcatenable found => "cannot concatenate " ++ found

namespace Scalar

/-- The text of a scalar in a concatenation: `null` and `false` leave no text and `true` is `1`. -/
def display : Scalar → String
  | null => ""
  | bool b => if b then "1" else ""
  | number n => n.text
  | string s => s

end Scalar

namespace Value

def display : Value → Except EvalError String
  | scalar s => .ok s.display
  | v => .error (.notConcatenable v.kind)

def asMap : Value → Except EvalError (Fields Value)
  | map fields => .ok fields
  | v => .error (.notAMap v.kind)

/-- The value at the end of a path, `null` if the path leads nowhere. -/
def atPath : Value → List String → Value
  | v, [] => v
  | map fields, key :: path =>
    match Fields.get? key fields with
    | some v => atPath v path
    | none => null
  | _, _ :: _ => null

end Value

namespace Expr

mutual

/-- The value of the expression with `scope` as the calling scope. -/
def evaluate (scope : Fields Value) : Expr → Except EvalError Value
  | literal s => .ok (.scalar s)
  | name path => .ok (match path with
    | [] => .null
    | _ => (Value.map scope).atPath path)
  | map entries => do return .map (← evaluateEntries scope [] entries)
  | list items => do return .list (← evaluateItems scope items)
  | concat left right => do
    let l ← (← left.evaluate scope).display
    let r ← (← right.evaluate scope).display
    return .string (l ++ r)
  | ambient => .ok (.map scope)
  | merge base overlay => do
    let below ← (← base.evaluate scope).asMap
    let above ← (← overlay.evaluate scope).asMap
    return .map (Fields.overlay below above)
termination_by structural e => e

def evaluateItems (scope : Fields Value) : List Expr → Except EvalError (List Value)
  | [] => .ok []
  | e :: rest => do
    let v ← e.evaluate scope
    return v :: (← evaluateItems scope rest)
termination_by structural es => es

/-- Puts the values of the entries, in order, into the fields that are there already. -/
def evaluateEntries (scope done : Fields Value) : List (String × Expr) → Except EvalError (Fields Value)
  | [] => .ok done
  | (key, e) :: rest => do
    let v ← e.evaluate scope
    evaluateEntries scope (Fields.put key v done) rest
termination_by structural es => es

end

end Expr

end Inclusion
