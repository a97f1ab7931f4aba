import Inclusion.Compiler
import Inclusion.Proofs.Component.Store
/-!
# Compilers in use

`Operation` lists what a compiler can be asked, and `Reachable` holds of the compilers that come about by
asking, with any disk at each step and any catalog. The contexts that a compiler in use gives have distinct keys
(`Reachable.distinct`): a new compiler keeps no configs, and an operation reaches the configs only through
`ConfigStore.load`.
-/

namespace Inclusion

/-- A catalog without an index builds it when it is asked. -/
theorem Catalog.resolve_of_build {disk : Disk} (c : Catalog) (name : String) {index : Index} {found : Component}
    (hindex : c.index = none) (hbuild : Index.build c.settings disk (c.paths.roots c.settings.ns) = .ok index)
    (hfound : Fields.get? name index = some found) :
    c.resolve disk name = (.ok found, { c with index := some index, builds := c.builds + 1 }) := by
  rw [resolve, getIndex, hindex]
  dsimp only
  rw [hbuild]
  dsimp only
  rw [hfound]

namespace Compiler

/-- Something that a compiler can be asked. -/
inductive Operation
  | register (tag : String)
  | component (name : String)
  | contains (name : String)
  | names
  | config (p : Path)
  | context (p : Path) (variant : Option String)
  | directive (source : String)
  | template (source : String)
  deriving Repr

/-- The compiler after it was asked. -/
def after (disk : Disk) (c : Compiler) : Operation → Compiler
  | .register tag => c.register tag
  | .component name => { c with catalog := (c.catalog.resolve disk name).2 }
  | .contains name => { c with catalog := (c.catalog.contains disk name).2 }
  | .names => { c with catalog := (c.catalog.names disk).2 }
  | .config p => { c with configs := (c.configs.load disk p).2 }
  | .context p variant => { c with configs := (c.configs.context disk p variant).2 }
  | .directive source => (c.compileDirective disk source).2
  | .template source => (c.compileTemplate disk source).2

/-- The compilers that come about by asking. Their catalog can be any, also one that was given to them. -/
inductive Reachable : Compiler → Prop
  | new (paths : SearchPaths) (s : Settings) : Reachable (.new paths s)
  | withCatalog {c : Compiler} (catalog : Catalog) (h : Reachable c) : Reachable { c with catalog := catalog }
  | after {c : Compiler} (disk : Disk) (op : Operation) (h : Reachable c) : Reachable (c.after disk op)

variable {disk : Disk} {c c' : Compiler}

/-- A directive resolves if its reference can be read, its component is found, and the context of the variant
can be read, unless the directive has no use for it. -/
theorem resolve_eq_ok_iff {d : Directive} {r : Resolution} :
    c.resolve disk d = (.ok r, c') ↔
      d.reference = .ok r.reference ∧
      ∃ catalog, c.catalog.resolve disk r.reference.component = (.ok r.component, catalog) ∧
        if d.skipsContext then r.context = none ∧ c' = { c with catalog := catalog }
        else ∃ context configs, r.context = some context ∧
          c.configs.context disk r.component.configPath r.reference.variant = (.ok context, configs) ∧
          c' = { c with catalog := catalog, configs := configs } := by
  obtain ⟨reference, component, context⟩ := r
  rw [resolve]
  constructor
  · intro h
    split at h
    · cases h
    · next href =>
      split at h
      · cases h
      · next catalog hcatalog =>
        dsimp only at h
        split at h
        · next hskips =>
          cases h
          exact ⟨href, catalog, hcatalog, by rw [if_pos hskips]; exact ⟨rfl, rfl⟩⟩
        · next hskips =>
          split at h
          · cases h
          · next found configs hcontext =>
            cases h
            exact ⟨href, catalog, hcatalog, by rw [if_neg hskips]; exact ⟨found, configs, rfl, hcontext, rfl⟩⟩
  · rintro ⟨href, catalog, hcatalog, h⟩
    dsimp only at href hcatalog h
    rw [href]
    dsimp only
    rw [hcatalog]
    split at h
    · next hskips =>
      obtain ⟨rfl, rfl⟩ := h
      exact if_pos hskips
    · next hskips =>
      obtain ⟨found, configs, rfl, hcontext, rfl⟩ := h
      refine (if_neg hskips).trans ?_
      rw [hcontext]

/-- A directive compiles if its tag is known and it can be read and resolved. -/
theorem compileAt_eq_ok_iff {offset : Nat} {cs : List Char} {call : IncludeCall} :
    c.compileAt disk offset cs = (.ok call, c') ↔
      (leadingTag offset cs).1 ∈ c.tags ∧
      ∃ d r, Directive.parse (leadingTag offset cs).1 offset cs = .ok d ∧ c.resolve disk d = (.ok r, c') ∧
        call = r.call d := by
  rw [compileAt]
  dsimp only
  rw [← List.contains_iff_mem]
  constructor
  · intro h
    split at h
    · next htag =>
      split at h
      · cases h
      · next d hd =>
        split at h
        · next r c'' hr =>
          cases h
          exact ⟨htag, d, r, hd, hr, rfl⟩
        · cases h
    · cases h
  · rintro ⟨htag, d, r, hd, hr, rfl⟩
    rw [if_pos htag, hd]
    dsimp only
    rw [hr]

/-! ### What an operation does to the configs -/

theorem configs_resolve (disk : Disk) (d : Directive) (c : Compiler) :
    (c.resolve disk d).2.configs = c.configs ∨
      ∃ p variant, (c.resolve disk d).2.configs = (c.configs.context disk p variant).2 := by
  rw [resolve]
  split
  · exact .inl rfl
  · next reference _ =>
    split
    · exact .inl rfl
    · next component catalog _ =>
      dsimp only
      split
      · exact .inl rfl
      · refine .inr ⟨component.configPath, reference.variant, ?_⟩
        split
        · next heq => rw [heq]
        · next heq => rw [heq]

theorem configs_compileAt (disk : Disk) (offset : Nat) (cs : List Char) (c : Compiler) :
    (c.compileAt disk offset cs).2.configs = c.configs ∨
      ∃ p variant, (c.compileAt disk offset cs).2.configs = (c.configs.context disk p variant).2 := by
  rw [compileAt]
  dsimp only
  split
  · split
    · exact .inl rfl
    · next d _ =>
      have hresolve := configs_resolve disk d c
      split
      · next heq => rwa [heq] at hresolve
      · next heq => rwa [heq] at hresolve
  · exact .inl rfl

/-- What compiling one block keeps, compiling all of them keeps. -/
theorem compileBlocks_keeps {I : Compiler → Prop}
    (hstep : ∀ offset cs c, I c → I (c.compileAt disk offset cs).2) (blocks : List Template.Block) (h : I c) :
    I (c.compileBlocks disk blocks).2 := by
  induction blocks generalizing c with
  | nil => exact h
  | cons b rest ih =>
    have hb := hstep b.start b.text c h
    rw [compileBlocks]
    split
    · next heq => rwa [heq] at hb
    · next call c₁ heq =>
      rw [heq] at hb
      have hrest := ih hb
      split
      · next heq' => rwa [heq'] at hrest
      · next heq' => rwa [heq'] at hrest

theorem distinct_compileAt (offset : Nat) (cs : List Char) (c : Compiler) (h : c.configs.Distinct) :
    (c.compileAt disk offset cs).2.configs.Distinct := by
  rcases configs_compileAt disk offset cs c with heq | ⟨p, variant, heq⟩
  · rwa [heq]
  · rw [heq]
    exact (h.context disk p variant).1

theorem Reachable.distinct (h : c.Reachable) : c.configs.Distinct := by
  induction h with
  | new paths s => exact ConfigStore.distinct_new _
  | withCatalog catalog _ ih => exact ih
  | after disk op _ ih =>
    cases op with
    | register tag =>
      rw [Compiler.after, register]
      split <;> exact ih
    | component name => exact ih
    | contains name => exact ih
    | names => exact ih
    | config p => exact (ih.load disk p).1
    | context p variant => exact (ih.context disk p variant).1
    | directive source => exact distinct_compileAt _ _ _ ih
    | template source => exact compileBlocks_keeps (I := fun c => c.configs.Distinct) distinct_compileAt _ ih

end Compiler

end Inclusion
