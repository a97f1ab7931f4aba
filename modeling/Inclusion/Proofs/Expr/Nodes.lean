import Inclusion.Expr.Eval
import Inclusion.Proofs.Grammar
/-!
# What an expression looks at

An expression reaches the calling scope in two ways only: through the first segment of a name, and through the node for
the scope as a whole. So two scopes that agree on the first segments cannot be told apart by an expression without such
a node (`evaluate_congr`). What is written down, in a directive or as a value, has no node for the scope.
-/

namespace Inclusion

namespace Expr

/-! ### The nodes of an expression -/

mutual

/-- The expression and all that it is made of. -/
def nodes : Expr → List Expr
  | literal s => [literal s]
  | name path => [name path]
  | map entries => map entries :: entryNodes entries
  | list items => list items :: itemNodes items
  | concat left right => concat left right :: (left.nodes ++ right.nodes)
  | ambient => [ambient]
  | merge base overlay => merge base overlay :: (base.nodes ++ overlay.nodes)
termination_by structural e => e

def itemNodes : List Expr → List Expr
  | [] => []
  | e :: rest => e.nodes ++ itemNodes rest
termination_by structural es => es

def entryNodes : List (String × Expr) → List Expr
  | [] => []
  | (_, e) :: rest => e.nodes ++ entryNodes rest
termination_by structural es => es

end

/-- The nodes look at nothing in which the two scopes differ. -/
structure AgreeOn (nodes : List Expr) (scope scope' : Fields Value) : Prop where
  no_ambient : ambient ∉ nodes
  get? : ∀ first path, name (first :: path) ∈ nodes → Fields.get? first scope = Fields.get? first scope'

variable {scope scope' : Fields Value}

theorem AgreeOn.nil : AgreeOn [] scope scope' where
  no_ambient := List.not_mem_nil
  get? := fun _ _ hmem => absurd hmem List.not_mem_nil

theorem AgreeOn.cons {e : Expr} {es : List Expr} (hambient : e ≠ ambient)
    (hname : ∀ first path, e = name (first :: path) → Fields.get? first scope = Fields.get? first scope')
    (h : AgreeOn es scope scope') : AgreeOn (e :: es) scope scope' where
  no_ambient := List.not_mem_cons_of_ne_of_not_mem hambient.symm h.no_ambient
  get? := by
    intro first path hmem
    obtain heq | hmem := List.mem_cons.mp hmem
    · exact hname first path heq.symm
    · exact h.get? first path hmem

theorem AgreeOn.append {xs ys : List Expr} (hx : AgreeOn xs scope scope') (hy : AgreeOn ys scope scope') :
    AgreeOn (xs ++ ys) scope scope' where
  no_ambient := by
    rw [List.mem_append, not_or]
    exact ⟨hx.no_ambient, hy.no_ambient⟩
  get? := by
    intro first path hmem
    obtain hmem | hmem := List.mem_append.mp hmem
    · exact hx.get? first path hmem
    · exact hy.get? first path hmem

theorem AgreeOn.mono {xs ys : List Expr} (h : AgreeOn ys scope scope') (hsub : ∀ e ∈ xs, e ∈ ys) :
    AgreeOn xs scope scope' where
  no_ambient := fun hmem => h.no_ambient (hsub _ hmem)
  get? := fun first path hmem => h.get? first path (hsub _ hmem)

theorem AgreeOn.tail {e : Expr} {es : List Expr} (h : AgreeOn (e :: es) scope scope') : AgreeOn es scope scope' :=
  h.mono fun _ => List.mem_cons_of_mem e

theorem AgreeOn.left {xs ys : List Expr} (h : AgreeOn (xs ++ ys) scope scope') : AgreeOn xs scope scope' :=
  h.mono fun _ => List.mem_append_left ys

theorem AgreeOn.right {xs ys : List Expr} (h : AgreeOn (xs ++ ys) scope scope') : AgreeOn ys scope scope' :=
  h.mono fun _ => List.mem_append_right xs

mutual

/-- Scopes that an expression cannot tell apart give it the same value, or the same error. -/
theorem evaluate_congr : ∀ {e : Expr}, AgreeOn e.nodes scope scope' → e.evaluate scope = e.evaluate scope'
  | literal s, _ => rfl
  | name [], _ => rfl
  | name (first :: path), h => by
    have hfirst := h.get? first path List.mem_cons_self
    simp only [evaluate, Value.atPath, hfirst]
  | map entries, h => by
    rw [evaluate, evaluate, evaluateEntries_congr [] h.tail]
  | list items, h => by
    rw [evaluate, evaluate, evaluateItems_congr h.tail]
  | concat left right, h => by
    rw [evaluate, evaluate, evaluate_congr h.tail.left, evaluate_congr h.tail.right]
  | ambient, h => absurd List.mem_cons_self h.no_ambient
  | merge base overlay, h => by
    rw [evaluate, evaluate, evaluate_congr h.tail.left, evaluate_congr h.tail.right]

theorem evaluateItems_congr : ∀ {items : List Expr}, AgreeOn (itemNodes items) scope scope' →
    evaluateItems scope items = evaluateItems scope' items
  | [], _ => rfl
  | e :: rest, h => by
    rw [evaluateItems, evaluateItems, evaluate_congr h.left, evaluateItems_congr h.right]

theorem evaluateEntries_congr (done : Fields Value) : ∀ {entries : List (String × Expr)},
    AgreeOn (entryNodes entries) scope scope' →
      evaluateEntries scope done entries = evaluateEntries scope' done entries
  | [], _ => rfl
  | (key, e) :: rest, h => by
    rw [evaluateEntries, evaluateEntries, evaluate_congr h.left]
    refine bind_congr fun v => ?_
    exact evaluateEntries_congr (Fields.put key v done) h.right

end

/-! ### What is written down -/

mutual

/-- An expression that is written as a value is looks at no scope. -/
theorem agreeOn_ofValue : ∀ v : Value, AgreeOn (ofValue v).nodes scope scope'
  | .scalar _ => .cons nofun nofun .nil
  | .list items => .cons nofun nofun (agreeOn_ofItems items)
  | .map fields => .cons nofun nofun (agreeOn_ofFields fields)

theorem agreeOn_ofItems : ∀ items : List Value, AgreeOn (itemNodes (ofItems items)) scope scope'
  | [] => .nil
  | v :: rest => (agreeOn_ofValue v).append (agreeOn_ofItems rest)

theorem agreeOn_ofFields : ∀ fields : List (String × Value), AgreeOn (entryNodes (ofFields fields)) scope scope'
  | [] => .nil
  | (_, v) :: rest => (agreeOn_ofValue v).append (agreeOn_ofFields rest)

end

theorem ambient_notMem_join {left : Option Expr} {e : Expr} (hleft : ∀ l ∈ left, ambient ∉ l.nodes)
    (he : ambient ∉ e.nodes) : ambient ∉ (join left e).nodes := by
  cases left with
  | none => exact he
  | some l =>
    rw [join, nodes, List.mem_cons, List.mem_append]
    simp [hleft l rfl, he]

end Expr

open Inclusion.Expr (ambient itemNodes entryNodes)

namespace Grammar

mutual

/-- What is derived from the grammar has no node for the scope. -/
theorem Chain.ambient_notMem : ∀ (c : Chain) (left : Option Expr), (∀ l ∈ left, ambient ∉ l.nodes) →
    ambient ∉ (c.exprAfter left).nodes
  | .one a, _, h => Expr.ambient_notMem_join h a.ambient_notMem
  | .cons a rest, _, h => by
    refine rest.ambient_notMem _ fun l hl => ?_
    cases hl
    exact Expr.ambient_notMem_join h a.ambient_notMem

theorem Atom.ambient_notMem : ∀ a : Atom, ambient ∉ a.expr.nodes
  | .literal _ => by simp [Atom.expr, Expr.nodes]
  | .negative _ => by simp [Atom.expr, Expr.nodes]
  | .name _ _ => by simp [Atom.expr, Expr.nodes]
  | .paren c => c.ambient_notMem none nofun
  | .list items => by simp [Atom.expr, Expr.nodes, items.ambient_notMem]
  | .map entries => by simp [Atom.expr, Expr.nodes, entries.ambient_notMem]

theorem Items.ambient_notMem : ∀ items : Items, ambient ∉ itemNodes items.exprs
  | .nil => List.not_mem_nil
  | .one c => by simp [Items.exprs, itemNodes, c.ambient_notMem none nofun]
  | .cons c rest => by simp [Items.exprs, itemNodes, c.ambient_notMem none nofun, rest.ambient_notMem]

theorem Entries.ambient_notMem : ∀ entries : Entries, ambient ∉ entryNodes entries.pairs
  | .nil => List.not_mem_nil
  | .one _ c => by simp [Entries.pairs, entryNodes, c.ambient_notMem none nofun]
  | .cons _ c rest => by simp [Entries.pairs, entryNodes, c.ambient_notMem none nofun, rest.ambient_notMem]

end

end Grammar

end Inclusion
