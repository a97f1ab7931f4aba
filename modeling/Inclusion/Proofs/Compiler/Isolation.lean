import Inclusion.Proofs.Compiler.Run
import Inclusion.Proofs.Disk.Shape
import Inclusion.Proofs.Expr.Nodes
import Inclusion.Proofs.Grammar.Parse
/-!
# What `only` keeps away

A directive with `only` gives its component nothing of the calling scope but what the expression after `with` names. The
expression that it composes has no node for the scope, and the context of the component has no names at all
(`agreeOn_call`). Without `with` it does not read the config of the component either, so that only the names of the
files matter, and not what is in them.
-/

namespace Inclusion

open Inclusion.Expr (AgreeOn)

variable {scope scope' : Fields Value}

/-- The expression after `with` has no node for the scope. -/
theorem Directive.ambient_notMem_of_parse {tag : String} {offset : Nat} {cs : List Char} {d : Directive}
    (h : Directive.parse tag offset cs = .ok d) : ∀ e ∈ d.vars, Expr.ambient ∉ e.value.nodes := by
  obtain ⟨-, s, -, rfl⟩ := Directive.parse_eq_ok_iff.mp h
  intro e he
  obtain ⟨outlined, houtlined, rfl⟩ := Option.map_eq_some_iff.mp he
  obtain ⟨chain, -, rfl⟩ := Option.map_eq_some_iff.mp houtlined
  exact chain.ambient_notMem none fun _ h => absurd h (Option.not_mem_none _)

/-- A call with `only` looks at the scope through the expression after `with` alone. -/
theorem agreeOn_call {d : Directive} (honly : d.only = true) (h : ∀ e ∈ d.vars, AgreeOn e.value.nodes scope scope')
    (r : Resolution) : AgreeOn (r.call d).vars.nodes scope scope' := by
  rw [Resolution.call, honly]
  cases hvars : d.vars with
  | none => exact .cons nofun nofun .nil
  | some e =>
    have he := h e hvars
    cases r.context with
    | none => exact he
    | some context => exact .cons nofun nofun ((Expr.agreeOn_ofValue (.map context)).append he)

namespace Compiler

variable {disk disk' : Disk}

/-- A directive that skips the context resolves in the same way on disks with the same paths. -/
theorem resolve_of_samePaths (hdisk : disk.top.WellFormed) (hdisk' : disk'.top.WellFormed) (h : disk.SamePaths disk')
    {d : Directive} (hskips : d.skipsContext = true) (c : Compiler) : c.resolve disk d = c.resolve disk' d := by
  have hcatalog (name : String) : c.catalog.resolve disk name = c.catalog.resolve disk' name := by
    rw [Catalog.resolve_eq, Catalog.resolve_eq, Catalog.getIndex_of_samePaths hdisk hdisk' h]
  rw [resolve, resolve]
  cases d.reference with
  | error f => rfl
  | ok reference =>
    dsimp only
    rw [hcatalog]
    split
    · rfl
    · rw [if_pos hskips, if_pos hskips]

/-- A directive with `only` isolates its component. The composed expression has no node for the scope, and scopes that
agree on the names after `with` are not told apart. Without `with` the directive compiles alike, and leaves the compiler
alike, on all disks with the same paths: the config of the component is not read. -/
theorem compileAt_only {c : Compiler} {offset : Nat} {cs : List Char} {d : Directive}
    (hparse : Directive.parse (leadingTag offset cs).1 offset cs = .ok d) (honly : d.only = true) :
    (∀ disk call c', c.compileAt disk offset cs = (.ok call, c') →
      Expr.ambient ∉ call.vars.nodes ∧
      ∀ scope scope' : Fields Value,
        (∀ e ∈ d.vars, ∀ first path, .name (first :: path) ∈ e.value.nodes →
          Fields.get? first scope = Fields.get? first scope') →
        call.evaluate scope = call.evaluate scope') ∧
    (d.vars = none → ∀ disk disk' : Disk, disk.top.WellFormed → disk'.top.WellFormed → disk.SamePaths disk' →
      c.compileAt disk offset cs = c.compileAt disk' offset cs) := by
  have hambient := Directive.ambient_notMem_of_parse hparse
  constructor
  · intro disk call c' hcall
    obtain ⟨-, d', r, hparse', -, rfl⟩ := compileAt_eq_ok_iff.mp hcall
    cases hparse.symm.trans hparse'
    constructor
    · have hself : AgreeOn (r.call d).vars.nodes [] [] := agreeOn_call honly (fun e he => ⟨hambient e he, fun _ _ _ => rfl⟩) r
      exact hself.no_ambient
    · intro scope scope' hget
      exact Expr.evaluate_congr (agreeOn_call honly (fun e he => ⟨hambient e he, hget e he⟩) r)
  · intro hvars disk disk' hdisk hdisk' hpaths
    have hskips : d.skipsContext = true := by
      rw [Directive.skipsContext, honly, hvars]
      rfl
    rw [compileAt_eq, compileAt_eq, hparse]
    dsimp only
    rw [resolve_of_samePaths hdisk hdisk' hpaths hskips]

/-- With `{x: a}` only `a` counts in the scope, and without `with` a config that is no text does no harm. -/
theorem compileAt_only_card :
    let disk (config : FileTree) : Disk := ⟨.directory [("card.yml", config)], []⟩
    let c : Compiler := { new (.fixed []) {} with catalog := .ofComponents [⟨"card", "@a/card.twig", ⟨"card.yml"⟩⟩] }
    let given := "render '@card' with \x7bx: a\x7d only"
    (∃ d, Directive.parse (leadingTag 0 given.toList).1 0 given.toList = .ok d ∧ d.only = true) ∧
      (∃ call c', c.compileDirective (disk (.text "")) given = (.ok call, c') ∧ Expr.ambient ∉ call.vars.nodes ∧
        call.evaluate [("a", .int 1)] = call.evaluate [("b", .int 2), ("a", .int 1)]) ∧
      c.compileDirective (disk (.text "")) "render '@card' only" = c.compileDirective (disk .bytes) "render '@card' only" := by
  intro disk c given
  let component : Component := ⟨"card", "@a/card.twig", ⟨"card.yml"⟩⟩
  let d : Directive := ⟨"render", ⟨.literal (.string "@card"), ⟨7, 14⟩⟩,
    some ⟨.map [("x", .name ["a"])], ⟨20, 26⟩⟩, true, false, ⟨0, 31⟩⟩
  let r : Resolution := ⟨⟨"card", none⟩, component, some [("variant", .null)]⟩
  have htag : (leadingTag 0 given.toList).1 = "render" := by decide +kernel
  have hparse : Directive.parse "render" 0 given.toList = .ok d := by
    have hlexemes : Lexer.lexemes 0 given.toList = [⟨.ident "render", ⟨0, 6⟩⟩, ⟨.string "@card", ⟨7, 14⟩⟩,
        ⟨.clause .with_, ⟨15, 19⟩⟩, ⟨.braceOpen, ⟨20, 21⟩⟩, ⟨.ident "x", ⟨21, 22⟩⟩, ⟨.colon, ⟨22, 23⟩⟩,
        ⟨.ident "a", ⟨24, 25⟩⟩, ⟨.braceClose, ⟨25, 26⟩⟩, ⟨.clause .only, ⟨27, 31⟩⟩] := by decide +kernel
    rw [Directive.parse, Directive.scan_eq_ok (by decide +kernel) hlexemes]
    rfl
  have hcontext : c.configs.context (disk (.text "")) ⟨"card.yml"⟩ none = (.ok [("variant", .null)], .new false) := by rfl
  have hcatalog : c.catalog.resolve (disk (.text "")) "card" = (.ok component, c.catalog) := by rfl
  have hresolve : c.resolve (disk (.text "")) d = (.ok r, _) :=
    resolve_eq_ok_iff.mpr ⟨rfl, _, hcatalog, _, .new false, rfl, hcontext, rfl⟩
  have hcall : c.compileAt (disk (.text "")) 0 given.toList = (.ok (r.call d), _) :=
    compileAt_eq_ok_iff.mpr ⟨by rw [htag]; decide, d, r, by rw [htag]; exact hparse, hresolve, rfl⟩
  rw [← htag] at hparse
  refine ⟨⟨d, hparse, rfl⟩, ⟨_, _, hcall, ?_⟩, ?_⟩
  · obtain ⟨hambient, hagree⟩ := (compileAt_only hparse rfl).1 _ _ _ hcall
    refine ⟨hambient, hagree _ _ fun e he first path hname => ?_⟩
    cases he
    obtain ⟨rfl, rfl⟩ : first = "a" ∧ path = [] := by
      simpa [Expr.nodes, Expr.entryNodes] using hname
    rfl
  · let bare : Directive := ⟨"render", ⟨.literal (.string "@card"), ⟨7, 14⟩⟩, none, true, false, ⟨0, 19⟩⟩
    have hbare : Directive.parse (leadingTag 0 "render '@card' only".toList).1 0 "render '@card' only".toList =
        .ok bare := by
      have htag : (leadingTag 0 "render '@card' only".toList).1 = "render" := by decide +kernel
      have hlexemes : Lexer.lexemes 0 "render '@card' only".toList =
          [⟨.ident "render", ⟨0, 6⟩⟩, ⟨.string "@card", ⟨7, 14⟩⟩, ⟨.clause .only, ⟨15, 19⟩⟩] := by decide +kernel
      rw [htag, Directive.parse, Directive.scan_eq_ok (by decide +kernel) hlexemes]
      rfl
    have hname : IsFileName "card.yml" := by decide
    have hwell (config : FileTree) (h : config.WellFormed) : (disk config).top.WellFormed := by
      exact .directory (List.nodup_singleton _) (List.forall_mem_singleton.mpr hname)
        (List.forall_mem_singleton.mpr h)
    have hpaths : (disk (.text "")).SamePaths (disk .bytes) :=
      ⟨rfl, .cons "card.yml" (.of_isFile trivial trivial) fun _ => rfl⟩
    exact (compileAt_only hbare rfl).2 rfl _ _ (hwell _ (.text "")) (hwell _ .bytes) hpaths

end Compiler

end Inclusion
