import Inclusion.Proofs.Component.Config
import Inclusion.Proofs.Expr.Nodes
import Inclusion.Proofs.Expr.Regroup
/-!
# Expressions that evaluate to what is written

Two kinds of expressions have a value before any scope is known. One that is written as a value is evaluates to this
value exactly when the keys of each map in it are distinct; contexts are written into include calls in this way, and
their keys are distinct (`evaluate_written`). And a concatenation of strings and numbers alone is the text that folding
it gives: evaluation displays the same text in every scope (`evaluate_of_constant`). Folding runs through the operands
from left to right, so it does not see how they are grouped (`constant?_eq_join`).
-/

namespace Inclusion

namespace Expr

/-! ### Values -/

theorem distinct_of_evaluate_ofValue {v : Value} {scope : Fields Value} (h : (ofValue v).evaluate scope = .ok v) :
    v.Distinct := by
  have hempty : (Value.map []).Distinct := Value.distinct_map.2 .nil
  have hsame : (ofValue v).evaluate scope = (ofValue v).evaluate [] := evaluate_congr (agreeOn_ofValue v)
  exact distinct_evaluate hempty (ofValue v) (hsame.symm.trans h)

/-- A value that is written down is evaluated to itself, with all keys in their order, if and only if no map in it has a
key twice. The context of a variant is such a value. -/
theorem evaluate_written (scope : Fields Value) :
    (∀ v : Value, (ofValue v).evaluate scope = .ok v ↔ v.Distinct) ∧
      ∀ config : Config, config.Distinct → ∀ variant,
        (Layer.context (config.resolve variant)).expr.evaluate scope = .ok (.map (config.resolve variant)) :=
  ⟨fun _ => ⟨distinct_of_evaluate_ofValue, fun h => evaluate_ofValue h scope⟩,
    fun _ hconfig variant => evaluate_ofValue (hconfig.resolve variant) scope⟩

/-- The keys of a map in the context keep their order, whatever is in scope. -/
theorem evaluate_written_card :
    let config : Config := { context := some [("size", .map [("width", .int 2), ("height", .int 1)])] }
    config.Distinct ∧
      (Layer.context (config.resolve (some "wide"))).expr.evaluate [("size", .null)] =
        .ok (.map [("variant", .string "wide"), ("size", .map [("width", .int 2), ("height", .int 1)])]) := by
  intro config
  have hsize : (Value.map [("width", .int 2), ("height", .int 1)]).Distinct :=
    Value.distinct_map.2 (.cons (by decide) (.scalar _) (.singleton (.scalar _)))
  have hconfig : config.Distinct := by
    refine ⟨?_, nofun⟩
    rintro context ⟨⟩
    exact Value.distinct_map.2 (.singleton hsize)
  exact ⟨hconfig, (evaluate_written [("size", .null)]).2 config hconfig (some "wide")⟩

/-! ### Constants -/

/-- Strings and numbers, and what is concatenated of them. -/
inductive Constant : Expr → Prop
  | string (s : String) : Constant (literal (.string s))
  | number (n : Number) : Constant (literal (.number n))
  | concat {left right : Expr} (hleft : Constant left) (hright : Constant right) : Constant (concat left right)

theorem constant?_concat (left right : Expr) :
    (concat left right).constant? = do return (← left.constant?) ++ (← right.constant?) := by
  rw [constant?]
  cases left.constant? <;> cases right.constant? <;> rfl

theorem constant_of_constant? {e : Expr} {s : String} (h : e.constant? = some s) : e.Constant := by
  fun_induction constant? e generalizing s with
  | case1 text => exact .string text
  | case2 n => exact .number n
  | case3 left right l r hright hleft ihleft ihright => exact .concat (ihleft hleft) (ihright hright)
  | case4 => cases h
  | case5 => cases h

theorem Constant.exists_text {e : Expr} (h : e.Constant) :
    ∃ s, e.constant? = some s ∧ ∀ scope, e.evaluateText scope = .ok s := by
  induction h with
  | string s => exact ⟨s, rfl, fun _ => rfl⟩
  | number n => exact ⟨n.text, rfl, fun _ => rfl⟩
  | concat _ _ ihl ihr =>
    obtain ⟨l, hl, hevall⟩ := ihl
    obtain ⟨r, hr, hevalr⟩ := ihr
    refine ⟨l ++ r, by rw [constant?_concat, hl, hr]; rfl, fun scope => ?_⟩
    rw [evaluateText_concat, hevall, hevalr]
    rfl

/-- What a concatenation concatenates, from left to right; any other expression is its own operand. -/
def operands : Expr → List Expr
  | concat left right => left.operands ++ right.operands
  | e => [e]

/-- Folding joins the texts of the operands. -/
theorem constant?_eq_join (e : Expr) : e.constant? = (e.operands.mapM constant?).map String.join := by
  fun_induction operands e with
  | case1 left right ihleft ihright =>
    rw [constant?_concat, ihleft, ihright, List.mapM_append]
    cases left.operands.mapM constant? <;> cases right.operands.mapM constant? <;> simp [String.join_append]
  | case2 e =>
    rw [List.mapM_cons, List.mapM_nil]
    cases e.constant? <;> simp

/-- Folding is defined for constants alone and agrees with evaluation, which displays the same text in every scope. How
the concatenation is grouped makes no difference. -/
theorem evaluate_of_constant (e : Expr) :
    ((∃ s, e.constant? = some s) ↔ e.Constant) ∧
      (∀ s, e.constant? = some s → ∀ scope,
        (∃ v, e.evaluate scope = .ok v ∧ v.display = .ok s) ∧
          (concat e (literal (.string ""))).evaluate scope = .ok (.string s)) ∧
      ∀ e' : Expr, e'.operands = e.operands → e'.constant? = e.constant? := by
  refine ⟨⟨fun ⟨s, hs⟩ => constant_of_constant? hs, fun h => ?_⟩, fun s hs scope => ?_, fun e' heq => ?_⟩
  · obtain ⟨s, hs, -⟩ := h.exists_text
    exact ⟨s, hs⟩
  · obtain ⟨t, ht, heval⟩ := (constant_of_constant? hs).exists_text
    obtain rfl : t = s := Option.some.inj (ht.symm.trans hs)
    refine ⟨exists_of_bind_eq_ok (heval scope), ?_⟩
    rw [evaluate_concat_eq, heval]
    show Except.ok (Value.string (t ++ "")) = _
    rw [String.append_empty]
  · rw [constant?_eq_join e', heq, ← constant?_eq_join e]

/-- The name of the component `@card--7` folds to the same text in both groupings. -/
theorem evaluate_of_constant_card :
    let card : Expr := literal (.string "@card")
    let dashes : Expr := literal (.string "--")
    let seven : Expr := literal (.number (.int 7))
    let e : Expr := concat (concat card dashes) seven
    e.constant? = some "@card--7" ∧
      (concat e (literal (.string ""))).evaluate [("card", .null)] = .ok (.string "@card--7") ∧
      (concat card (concat dashes seven)).operands = e.operands ∧
      (concat card (concat dashes seven)).constant? = some "@card--7" := by
  intro card dashes seven e
  have hfold : e.constant? = some "@card--7" := by decide
  have hsame : (concat card (concat dashes seven)).operands = e.operands := rfl
  obtain ⟨-, hevaluate, hgroup⟩ := evaluate_of_constant e
  exact ⟨hfold, (hevaluate "@card--7" hfold _).2, hsame, (hgroup _ hsame).trans hfold⟩

end Expr

end Inclusion
