import Inclusion.Proofs.Compiler.Reachable
import Inclusion.Proofs.Expr.Eval
import Mathlib
/-!
# Which layer a variable comes from

The variables of an include call come from the context of the component, the fields given after `with` and the
calling scope. `Layered` says what the three make together: a key has its value from the highest layer that
has it, and the keys stand in the order in which the layers, from the lowest, bring them in. The composed
expression evaluates to an overlay of the three (`evaluate_compose_layers`), and overlaying fields with
distinct keys makes them layered. The only way to fail is an expression after `with` that fails or gives no map.
-/

namespace Inclusion

/-- The fields that three layers make together. -/
structure Layered (context given scope fields : Fields Value) : Prop where
  get? : ∀ key, fields.get? key = (scope.get? key).or ((given.get? key).or (context.get? key))
  keys : fields.keys = context.keys ++ given.keys.filter (· ∉ context.keys) ++
    scope.keys.filter fun key => key ∉ context.keys ∧ key ∉ given.keys

theorem Layered.overlay {context given scope : Fields Value} (hgiven : given.keys.Nodup) (hscope : scope.keys.Nodup) :
    Layered context given scope ((context.overlay given).overlay scope) := by
  refine ⟨fun key => ?_, Fields.keys_overlay_overlay context hgiven hscope⟩
  rw [Fields.get?_overlay _ hscope, Fields.get?_overlay _ hgiven]

variable {scope : Fields Value}

/-- The fields that an expression gives where a map is expected. -/
def Expr.evaluateMap (scope : Fields Value) (e : Expr) : Except EvalError (Fields Value) :=
  e.evaluate scope >>= Value.asMap

theorem Expr.evaluate_merge_eq (base overlay : Expr) :
    (merge base overlay).evaluate scope = do
      let below ← base.evaluateMap scope
      let above ← overlay.evaluateMap scope
      return .map (below.overlay above) := by
  simp only [evaluate, evaluateMap, bind_assoc]

theorem Expr.evaluate_merge {base overlay : Expr} {below : Fields Value}
    (h : base.evaluate scope = .ok (.map below)) :
    (merge base overlay).evaluate scope = (overlay.evaluateMap scope).map fun above => .map (below.overlay above) := by
  have hbase : base.evaluateMap scope = .ok below := by
    rw [evaluateMap, h]
    rfl
  rw [evaluate_merge_eq, hbase]
  cases overlay.evaluateMap scope <;> rfl

namespace Directive

/-- The fields that the directive gives after `with`, none if it has no `with`. -/
def given (d : Directive) (scope : Fields Value) : Except EvalError (Fields Value) :=
  match d.vars with
  | none => .ok []
  | some e => e.value.evaluateMap scope

/-- The part of the calling scope that the component sees. -/
def visible (d : Directive) (scope : Fields Value) : Fields Value :=
  if d.only then [] else scope

end Directive

theorem evaluate_compose_layers {context : Context} (hcontext : (Value.map context).Distinct) {d : Directive}
    (hskips : d.skipsContext = false) (scope : Fields Value) :
    (compose (layers (some context) (d.vars.map Located.value) d.only)).evaluate scope =
      (d.given scope).map fun given => .map ((context.overlay given).overlay (d.visible scope)) := by
  have hbelow : (Layer.context context).expr.evaluate scope = .ok (.map context) :=
    Expr.evaluate_ofValue hcontext scope
  rw [Directive.skipsContext] at hskips
  rw [Directive.given, Directive.visible]
  cases hvars : d.vars with
  | none =>
    cases honly : d.only with
    | true => simp [hvars, honly] at hskips
    | false => exact Expr.evaluate_merge hbelow
  | some e =>
    cases honly : d.only with
    | true => exact Expr.evaluate_merge hbelow
    | false =>
      have hmiddle : (Expr.merge _ e.value).evaluate scope = _ := Expr.evaluate_merge hbelow
      show (Expr.merge (Expr.merge _ e.value) .ambient).evaluate scope =
        (e.value.evaluateMap scope).map fun given => .map ((context.overlay given).overlay scope)
      cases hgiven : e.value.evaluateMap scope with
      | error err =>
        rw [Expr.evaluate, hmiddle, hgiven]
        rfl
      | ok given =>
        rw [hgiven] at hmiddle
        exact Expr.evaluate_merge hmiddle

/-- What the variables of a compiled directive are. With `only` and without `with` there are none. Otherwise
the context of the component's variant lies below the fields given after `with`, and these below the calling
scope, which `only` takes away. -/
theorem evaluate_compileDirective {disk : Disk} {c c' : Compiler} {source : String} {call : IncludeCall}
    (hc : c.Reachable) (h : c.compileDirective disk source = (.ok call, c')) (hs : (Value.map scope).Distinct) :
    ∃ d r, Directive.parse (leadingTag 0 source.toList).1 0 source.toList = .ok d ∧
      c.resolve disk d = (.ok r, c') ∧
      if d.only && d.vars.isNone then call.evaluate scope = .ok (.map [])
      else ∃ context, r.context = some context ∧
        (c.configs.context disk r.component.configPath r.reference.variant).1 = .ok context ∧
        match d.vars with
        | none => ∃ fields, call.evaluate scope = .ok (.map fields) ∧
            Layered context [] (if d.only then [] else scope) fields
        | some e =>
          match e.value.evaluate scope with
          | .error err => call.evaluate scope = .error err
          | .ok (.map given) => ∃ fields, call.evaluate scope = .ok (.map fields) ∧
              Layered context given (if d.only then [] else scope) fields
          | .ok v => call.evaluate scope = .error (.notAMap v.kind) := by
  obtain ⟨-, d, r, hd, hr, rfl⟩ := Compiler.compileAt_eq_ok_iff.1 h
  obtain ⟨-, catalog, -, hcontext⟩ := Compiler.resolve_eq_ok_iff.1 hr
  refine ⟨d, r, hd, hr, ?_⟩
  show if d.skipsContext then _ else _
  have hdistinct := hc.distinct.context disk r.component.configPath r.reference.variant
  cases hskips : d.skipsContext with
  | true =>
    obtain ⟨honly, hvars⟩ := Bool.and_eq_true_iff.1 hskips
    rw [if_pos rfl, IncludeCall.evaluate, Resolution.call, Option.isNone_iff_eq_none.1 hvars, honly]
    rfl
  | false =>
    rw [hskips, if_neg Bool.false_ne_true] at hcontext
    obtain ⟨context, configs, hr', hload, -⟩ := hcontext
    rw [if_neg Bool.false_ne_true]
    refine ⟨context, hr', by rw [hload], ?_⟩
    rw [hload] at hdistinct
    have heval := evaluate_compose_layers (hdistinct.2 context rfl) hskips scope
    have hvisible : (Fields.keys (d.visible scope)).Nodup := by
      rw [Directive.visible]
      split
      · exact List.nodup_nil
      · exact (Value.distinct_map.1 hs).nodup
    rw [IncludeCall.evaluate, Resolution.call, hr', heval, Directive.given]
    cases d.vars with
    | none => exact ⟨_, rfl, .overlay List.nodup_nil hvisible⟩
    | some e =>
      dsimp only
      rw [Expr.evaluateMap]
      cases hgiven : e.value.evaluate scope with
      | error err => rfl
      | ok v =>
        have hv := Expr.distinct_evaluate hs e.value hgiven
        cases v with
        | map given => exact ⟨_, rfl, .overlay (Value.distinct_map.1 hv).nodup hvisible⟩
        | scalar s => rfl
        | list items => rfl

/-- The variant comes from the context, `y` from the fields after `with`, and `x` from the calling scope. -/
theorem evaluate_compileDirective_card :
    ∃ call c' fields,
      (Compiler.ofSettings { roots := [⟨"r"⟩] }).compileDirective
        ⟨.directory [("r", .directory [("card.config.yml", .text ""), ("card.twig", .text "")])], []⟩
        "render '@card--wide' with \x7bx: 9, y: 1\x7d" = (.ok call, c') ∧
      (Value.map [("x", .int 5)]).Distinct ∧
      call.evaluate [("x", .int 5)] = .ok (.map fields) ∧
      Fields.keys fields = ["variant", "x", "y"] ∧ Fields.get? "x" fields = some (.int 5) ∧
      Fields.get? "y" fields = some (.int 1) := by
  let card : FileTree := .directory [("card.config.yml", .text ""), ("card.twig", .text "")]
  let component : Component := ⟨"card", "@FrctlTwig/card.twig", ⟨"r/card.config.yml"⟩⟩
  let vars : Expr := .map [("x", .literal (.number (.int 9))), ("y", .literal (.number (.int 1)))]
  let d : Directive :=
    ⟨"render", ⟨.literal (.string "@card--wide"), ⟨7, 20⟩⟩, some ⟨vars, ⟨26, 38⟩⟩, false, false, ⟨0, 38⟩⟩
  -- sorting the names of a directory is no computation that the kernel finishes
  have hfiles : card.files ⟨"r"⟩ = [⟨"r/card.config.yml"⟩, ⟨"r/card.twig"⟩] := by
    rw [FileTree.files, List.mergeSort_of_pairwise (by decide +kernel)]
    decide +kernel
  have hunder : Index.componentsUnder { roots := [⟨"r"⟩] } ⟨.directory [("r", card)], []⟩ ⟨"r"⟩ = .ok [component] := by
    have hlookup : (Disk.mk (.directory [("r", card)]) []).lookup ⟨"r"⟩ = .ok card := rfl
    rw [Index.componentsUnder, hlookup]
    dsimp only
    rw [hfiles]
    decide +kernel
  have hbuild : Index.build { roots := [⟨"r"⟩] } ⟨.directory [("r", card)], []⟩ [⟨"r"⟩] =
      .ok [("card", component)] := by
    rw [Index.build, if_neg (by decide), List.foldlM_cons, Index.addRoot, hunder]
    rfl
  have hs : (Value.map [("x", .int 5)]).Distinct :=
    Value.distinct_map.2 (.singleton (.scalar _))
  have htag : (leadingTag 0 "render '@card--wide' with \x7bx: 9, y: 1\x7d".toList).1 = "render" := by decide +kernel
  have hparse : Directive.parse "render" 0 "render '@card--wide' with \x7bx: 9, y: 1\x7d".toList = .ok d := by cbv
  have hcontext : ConfigStore.context ⟨.directory [("r", card)], []⟩ ⟨"r/card.config.yml"⟩ (some "wide") (.new false) =
      (.ok [("variant", .string "wide")], .new false) := by rfl
  let c : Compiler := .ofSettings { roots := [⟨"r"⟩] }
  let r : Resolution := ⟨⟨"card", some "wide"⟩, component, some [("variant", .string "wide")]⟩
  have hcatalog := c.catalog.resolve_of_build "card" rfl hbuild rfl
  have hresolve : c.resolve ⟨.directory [("r", card)], []⟩ d = (.ok r, _) :=
    Compiler.resolve_eq_ok_iff.2 ⟨rfl, _, hcatalog, _, .new false, rfl, hcontext, rfl⟩
  have hcompile : c.compileAt ⟨.directory [("r", card)], []⟩ 0 "render '@card--wide' with \x7bx: 9, y: 1\x7d".toList =
      (.ok (r.call d), _) :=
    Compiler.compileAt_eq_ok_iff.2 ⟨by rw [htag]; decide +kernel, d, r, by rw [htag]; exact hparse, hresolve, rfl⟩
  obtain ⟨d', r', hparse', hresolve', hlaw⟩ := evaluate_compileDirective (.new _ _) hcompile hs
  rw [htag, hparse] at hparse'
  cases hparse'
  cases hresolve.symm.trans hresolve'
  obtain ⟨context, hcontext', -, fields, heval, hlayers⟩ := hlaw
  cases hcontext'
  refine ⟨_, _, fields, hcompile, hs, heval, ?_, ?_, ?_⟩
  · exact hlayers.keys.trans (by decide)
  · exact hlayers.get? "x"
  · exact hlayers.get? "y"

end Inclusion
