import Inclusion.Proofs.Composition
/-!
# Regrouping

A concatenation looks at its sides only through the texts that they give, and a merge only through the fields. Both take
the left side first, and what they give is again of the kind that they take. So nested concatenations, and nested merges,
run through the same operands in the same order however they are grouped, and meet the same failure first
(`evaluate_concat_assoc`, `evaluate_merge_assoc`). For merges this needs fields with distinct keys, which every
expression gives in a scope that has them. Composed layers are merges that are grouped to the left, so composing layers
can be done in parts (`evaluate_compose_append`).
-/

namespace Inclusion

variable {scope : Fields Value}

namespace Expr

/-- The text that an expression gives where it is concatenated. -/
def evaluateText (scope : Fields Value) (e : Expr) : Except EvalError String :=
  e.evaluate scope >>= Value.display

/-! ### What the two operators do -/

theorem evaluate_concat_eq (left right : Expr) :
    (concat left right).evaluate scope = do
      let l ← left.evaluateText scope
      let r ← right.evaluateText scope
      return .string (l ++ r) := by
  simp only [evaluate, evaluateText, bind_assoc]

theorem evaluateText_concat (left right : Expr) :
    (concat left right).evaluateText scope = do
      let l ← left.evaluateText scope
      let r ← right.evaluateText scope
      return l ++ r := by
  rw [evaluateText, evaluate_concat_eq]
  simp only [bind_assoc, pure_bind]
  rfl

theorem evaluateMap_merge (base overlay : Expr) :
    (merge base overlay).evaluateMap scope = do
      let below ← base.evaluateMap scope
      let above ← overlay.evaluateMap scope
      return below.overlay above := by
  rw [evaluateMap, evaluate_merge_eq]
  simp only [bind_assoc, pure_bind]
  rfl

/-- The value of an overlay is all that a merge sees of it. -/
theorem evaluate_merge_congr {overlay overlay' : Expr} (base : Expr)
    (h : overlay.evaluate scope = overlay'.evaluate scope) :
    (merge base overlay).evaluate scope = (merge base overlay').evaluate scope := by
  rw [evaluate_merge_eq, evaluate_merge_eq, evaluateMap, evaluateMap, evaluateMap, h]

/-! ### Three operands -/

theorem evaluate_concat_assoc (a b c : Expr) :
    (concat (concat a b) c).evaluate scope = (concat a (concat b c)).evaluate scope := by
  rw [evaluate_concat_eq, evaluateText_concat, evaluate_concat_eq, evaluateText_concat]
  simp only [bind_assoc, pure_bind, String.append_assoc]

theorem nodup_of_evaluateMap (hs : (Value.map scope).Distinct) {e : Expr} {fields : Fields Value}
    (h : e.evaluateMap scope = .ok fields) : (Fields.keys fields).Nodup := by
  obtain ⟨v, hv, hmap⟩ := exists_of_bind_eq_ok h
  exact ((distinct_evaluate hs e hv).all_of_asMap hmap).nodup

theorem evaluate_merge_assoc (hs : (Value.map scope).Distinct) (a b c : Expr) :
    (merge (merge a b) c).evaluate scope = (merge a (merge b c)).evaluate scope := by
  rw [evaluate_merge_eq, evaluateMap_merge, evaluate_merge_eq, evaluateMap_merge]
  -- both sides ask the operands in this order, and the first that fails is the answer of both
  cases ha : a.evaluateMap scope with
  | error e => rfl
  | ok below =>
    cases hb : b.evaluateMap scope with
    | error e => rfl
    | ok middle =>
      cases hc : c.evaluateMap scope with
      | error e => rfl
      | ok above =>
        have hassoc := Fields.overlay_assoc (nodup_of_evaluateMap hs ha) (nodup_of_evaluateMap hs hb)
          (nodup_of_evaluateMap hs hc)
        show Except.ok (Value.map _) = Except.ok (Value.map _)
        rw [hassoc]

end Expr

/-! ### Layers -/

/-- Merging layers onto a merge is merging them onto its overlay. -/
theorem evaluate_foldl_merge (hs : (Value.map scope).Distinct) (layers : List Layer) (base overlay : Expr) :
    (layers.foldl (fun base layer => Expr.merge base layer.expr) (.merge base overlay)).evaluate scope =
      (Expr.merge base (layers.foldl (fun base layer => Expr.merge base layer.expr) overlay)).evaluate scope := by
  induction layers generalizing base overlay with
  | nil => rfl
  | cons layer rest ih =>
    -- the whole merge moves out of the rest; regrouped, what lies over `base` is the rest merged onto `overlay`
    rw [List.foldl_cons, List.foldl_cons, ih, Expr.evaluate_merge_assoc hs]
    exact Expr.evaluate_merge_congr base (ih overlay layer.expr).symm

theorem evaluate_compose_append (hs : (Value.map scope).Distinct) {lower upper : List Layer} (hlower : lower ≠ [])
    (hupper : upper ≠ []) :
    (compose (lower ++ upper)).evaluate scope = (Expr.merge (compose lower) (compose upper)).evaluate scope := by
  cases lower with
  | nil => contradiction
  | cons first rest =>
    cases upper with
    | nil => contradiction
    | cons next others =>
      show (List.foldl _ first.expr (rest ++ next :: others)).evaluate scope = _
      rw [List.foldl_append, List.foldl_cons, evaluate_foldl_merge hs]
      rfl

/-- Grouping changes neither the value, nor the order of its keys, nor which failure is met. -/
theorem evaluate_regroup (hs : (Value.map scope).Distinct) :
    (∀ a b c : Expr, (Expr.merge (.merge a b) c).evaluate scope = (Expr.merge a (.merge b c)).evaluate scope) ∧
      (∀ a b c : Expr, (Expr.concat (.concat a b) c).evaluate scope = (Expr.concat a (.concat b c)).evaluate scope) ∧
      ∀ lower upper : List Layer, lower ≠ [] → upper ≠ [] →
        (compose (lower ++ upper)).evaluate scope = (Expr.merge (compose lower) (compose upper)).evaluate scope :=
  ⟨Expr.evaluate_merge_assoc hs, Expr.evaluate_concat_assoc, fun _ _ => evaluate_compose_append hs⟩

/-- The fields after `with` go onto the context and the calling scope onto both, or the calling scope goes onto the
fields and both onto the context. -/
theorem evaluate_regroup_card :
    let scope : Fields Value := [("x", .int 5)]
    let lower : List Layer := [.context [("variant", .null), ("x", .int 1)]]
    let upper : List Layer := [.explicit (.map [("y", .literal (.number (.int 9)))]), .ambient]
    (Value.map scope).Distinct ∧ lower ≠ [] ∧ upper ≠ [] ∧
      (compose (lower ++ upper)).evaluate scope = (Expr.merge (compose lower) (compose upper)).evaluate scope ∧
      (compose (lower ++ upper)).evaluate scope =
        .ok (.map [("variant", .null), ("x", .int 5), ("y", .int 9)]) := by
  intro scope lower upper
  have hs : (Value.map scope).Distinct := Value.distinct_map.2 (.singleton (.scalar _))
  have hlower : lower ≠ [] := List.cons_ne_nil _ _
  have hupper : upper ≠ [] := List.cons_ne_nil _ _
  obtain ⟨-, -, hcompose⟩ := evaluate_regroup hs
  exact ⟨hs, hlower, hupper, hcompose lower upper hlower hupper, rfl⟩

end Inclusion
