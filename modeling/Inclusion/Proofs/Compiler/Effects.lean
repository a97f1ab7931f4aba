import Inclusion.Proofs.Compiler.Run
/-!
# What a directive changes

A directive is read before anything is looked up for it, and reading it takes nothing but the tags: whatever is wrong
with the text itself is found without the disk and without the catalog (`read`). What follows goes one of four ways
(`Lookup`): the component is not found, the context is not needed, its config cannot be read, or the call is composed.
Only the last one adds to the configs that are kept, and only a search that succeeds adds to the catalog.
-/

namespace Inclusion

/-- A load that fails leaves the store as it was. -/
theorem ConfigStore.load_error {disk : Disk} {p : Path} {s s' : ConfigStore} {e : ConfigError}
    (h : s.load disk p = (.error e, s')) : s' = s := by
  rw [load] at h
  split at h
  · cases h
  · split at h
    · cases h
    · cases h
      rfl

theorem CompileError.kind_catalog_ne (e : CatalogError) (span : Option Span) :
    (CompileError.catalog e span).kind ≠ .malformedDirective := by
  cases e <;> simp [kind]

theorem CompileError.kind_config_ne (e : ConfigError) (span : Option Span) :
    (CompileError.config e span).kind ≠ .malformedDirective := by
  cases e <;> simp [kind]

namespace Catalog

variable {c : Catalog} {disk : Disk} {name : String} {e : CatalogError}

theorem getIndex_of_isBuilt (h : c.isBuilt = true) (disk : Disk) : (c.getIndex disk).2 = c := by
  obtain ⟨index, hindex⟩ := Option.isSome_iff_exists.mp h
  rw [getIndex_of_index hindex]

/-- If something else is wrong than that the component is unknown, the search itself has failed, and it leaves nothing
behind. -/
theorem getIndex_of_resolve_error (h : (c.resolve disk name).1 = .error e) (hknown : e ≠ .unknown name) :
    (c.getIndex disk).2 = c := by
  rw [resolve_eq] at h
  cases hindex : c.index with
  | some index => rw [getIndex_of_index hindex]
  | none =>
    cases hsearch : c.search disk with
    | error e' => rw [getIndex_of_search_error hindex hsearch]
    | ok index =>
      rw [getIndex_of_search_ok hindex hsearch, Except.bind] at h
      dsimp only at h
      cases hname : Fields.get? name index with
      | none =>
        rw [hname] at h
        cases h
        exact absurd rfl hknown
      | some found =>
        rw [hname] at h
        cases h

end Catalog

namespace Compiler

/-! ### Reading a directive -/

/-- What a text says before anything is looked up: the directive that it is, and the reference in it. -/
def read (tags : List String) (offset : Nat) (cs : List Char) : Except CompileError (Directive × Reference) :=
  let (tag, span) := leadingTag offset cs
  if tags.contains tag then
    match Directive.parse tag offset cs with
    | .error f => .error (.malformed [f])
    | .ok d =>
      match d.reference with
      | .error f => .error (.malformed [f])
      | .ok reference => .ok (d, reference)
  else .error (.unknownTag tag span)

variable {disk : Disk} {c : Compiler} {offset : Nat} {cs : List Char} {d : Directive} {reference : Reference} {e : CompileError}

/-- All that reading a directive can find is that it is malformed. -/
theorem kind_of_read {tags : List String} (h : read tags offset cs = .error e) : e.kind = .malformedDirective := by
  rw [read] at h
  dsimp only at h
  split at h
  · split at h
    · cases h
      rfl
    · split at h
      · cases h
        rfl
      · cases h
  · cases h
    rfl

theorem parse_of_read {tags : List String} (h : read tags offset cs = .ok (d, reference)) :
    Directive.parse (leadingTag offset cs).1 offset cs = .ok d := by
  rw [read] at h
  dsimp only at h
  split at h
  · split at h
    · cases h
    · next hparse =>
      split at h
      · cases h
      · cases h
        exact hparse
  · cases h

/-- What cannot be read is the answer, and nothing is looked up. -/
theorem compileAt_of_read_error (h : read c.tags offset cs = .error e) (disk : Disk) :
    c.compileAt disk offset cs = (.error e, c) := by
  rw [read] at h
  rw [compileAt_eq]
  dsimp only at h
  by_cases htag : c.tags.contains (leadingTag offset cs).1 = true
  · rw [if_pos htag] at h ⊢
    cases hparse : Directive.parse (leadingTag offset cs).1 offset cs with
    | error f =>
      rw [hparse] at h
      cases h
      rfl
    | ok d =>
      rw [hparse] at h
      dsimp only at h ⊢
      rw [resolve_eq]
      cases href : d.reference with
      | error f =>
        rw [href] at h
        cases h
        rfl
      | ok reference =>
        rw [href] at h
        cases h
  · rw [if_neg htag] at h ⊢
    cases h
    rfl

/-! ### Looking up what it needs -/

/-- How it goes with a directive that has been read: its answer, and the compiler afterwards. -/
inductive Lookup (disk : Disk) (d : Directive) (reference : Reference) (c : Compiler) :
    Except CompileError IncludeCall → Compiler → Prop
  | notFound {e : CatalogError} (hcatalog : (c.catalog.resolve disk reference.component).1 = .error e) :
    Lookup disk d reference c (.error (.catalog e (some d.span))) { c with catalog := (c.catalog.getIndex disk).2 }
  | isolated {component : Component} (hcatalog : (c.catalog.resolve disk reference.component).1 = .ok component)
    (hskips : d.skipsContext = true) :
    Lookup disk d reference c (.ok (Resolution.call ⟨reference, component, none⟩ d))
      { c with catalog := (c.catalog.getIndex disk).2 }
  | unread {component : Component} {e : ConfigError}
    (hcatalog : (c.catalog.resolve disk reference.component).1 = .ok component) (hskips : d.skipsContext = false)
    (hload : c.configs.load disk component.configPath = (.error e, c.configs)) :
    Lookup disk d reference c (.error (.config e (some d.span))) { c with catalog := (c.catalog.getIndex disk).2 }
  | composed {component : Component} {config : Config} {configs : ConfigStore}
    (hcatalog : (c.catalog.resolve disk reference.component).1 = .ok component) (hskips : d.skipsContext = false)
    (hload : c.configs.load disk component.configPath = (.ok config, configs)) :
    Lookup disk d reference c
      (.ok (Resolution.call ⟨reference, component, some (config.resolve reference.variant)⟩ d))
      { c with catalog := (c.catalog.getIndex disk).2, configs := configs }

theorem lookup_of_read (h : read c.tags offset cs = .ok (d, reference)) (disk : Disk) :
    Lookup disk d reference c (c.compileAt disk offset cs).1 (c.compileAt disk offset cs).2 := by
  have hparse := parse_of_read h
  rw [read] at h
  dsimp only at h
  split at h
  · next htag =>
    rw [compileAt_eq, if_pos htag, hparse]
    rw [hparse] at h
    dsimp only at h ⊢
    split at h
    · cases h
    · next href =>
      cases h
      rw [resolve_eq, href]
      dsimp only
      cases hcatalog : (c.catalog.resolve disk reference.component).1 with
      | error e => exact .notFound hcatalog
      | ok component =>
        dsimp only
        cases hskips : d.skipsContext with
        | true => exact .isolated hcatalog hskips
        | false =>
          simp only [Bool.false_eq_true, if_false]
          cases hload : c.configs.load disk component.configPath with
          | mk loaded configs =>
            cases loaded with
            | ok config => exact .composed hcatalog hskips hload
            | error e =>
              obtain rfl := ConfigStore.load_error hload
              exact .unread hcatalog hskips hload
  · cases h

/-- Either the text cannot be read as a directive, or what it needs is looked up. -/
theorem read_or_lookup {answer : Except CompileError IncludeCall} {c' : Compiler}
    (h : c.compileAt disk offset cs = (answer, c')) :
    (∃ e, read c.tags offset cs = .error e ∧ answer = .error e ∧ c' = c) ∨
      ∃ d reference, read c.tags offset cs = .ok (d, reference) ∧ Lookup disk d reference c answer c' := by
  cases hread : read c.tags offset cs with
  | error e =>
    rw [compileAt_of_read_error hread] at h
    cases h
    exact .inl ⟨e, rfl, rfl, rfl⟩
  | ok found =>
    obtain ⟨d, reference⟩ := found
    have hlookup := lookup_of_read hread disk
    rw [h] at hlookup
    exact .inr ⟨d, reference, rfl, hlookup⟩

/-! ### What is left behind -/

namespace Lookup

variable {answer : Except CompileError IncludeCall} {c' : Compiler}

theorem kind_ne (h : Lookup disk d reference c answer c') (hanswer : answer = .error e) : e.kind ≠ .malformedDirective := by
  cases h with
  | notFound =>
    cases hanswer
    exact CompileError.kind_catalog_ne _ _
  | isolated => cases hanswer
  | unread =>
    cases hanswer
    exact CompileError.kind_config_ne _ _
  | composed => cases hanswer

/-- When something is not found, at most the catalog has been searched. -/
theorem eq_of_error (h : Lookup disk d reference c answer c') (hanswer : answer = .error e) :
    c' = { c with catalog := (c.catalog.getIndex disk).2 } := by
  cases h with
  | notFound => rfl
  | isolated => cases hanswer
  | unread => rfl
  | composed => cases hanswer

theorem eq_of_skipsContext (h : Lookup disk d reference c answer c') (hskips : d.skipsContext = true) :
    c' = { c with catalog := (c.catalog.getIndex disk).2 } := by
  cases h with
  | notFound => rfl
  | isolated => rfl
  | unread _ hneeds => exact absurd (hskips.symm.trans hneeds) Bool.true_eq_false.mp
  | composed _ hneeds => exact absurd (hskips.symm.trans hneeds) Bool.true_eq_false.mp

theorem eq_of_search_fails {e : CatalogError} {span : Option Span} (h : Lookup disk d reference c answer c')
    (hanswer : answer = .error (.catalog e span)) (hknown : ∀ name, e ≠ .unknown name) : c' = c := by
  cases h with
  | notFound hcatalog =>
    cases hanswer
    rw [Catalog.getIndex_of_resolve_error hcatalog (hknown _)]
  | isolated => cases hanswer
  | unread => cases hanswer
  | composed => cases hanswer

end Lookup

/-- A directive that is malformed changes nothing, and the disk is not even looked at. If its component is not found, the
configs stay as they were, and so does the catalog unless a search has shown that there is no such component. A directive
with `only` and without `with` leaves the configs as they were, whether it compiles or not. If a config cannot be read,
it is not kept and a catalog that was built before stays as it was. -/
theorem unchanged_of_compileDirective (disk : Disk) (source : String) (c : Compiler) :
    (∀ e c', c.compileDirective disk source = (.error e, c') → e.kind = .malformedDirective →
        c' = c ∧ ∀ disk', c.compileDirective disk' source = (.error e, c)) ∧
      (∀ e span c', c.compileDirective disk source = (.error (.catalog e span), c') →
        c' = { c with catalog := (c.catalog.getIndex disk).2 } ∧ ((∀ name, e ≠ .unknown name) → c' = c)) ∧
      (∀ d, Directive.parse (leadingTag 0 source.toList).1 0 source.toList = .ok d → d.only = true → d.vars = none →
        ∀ answer c', c.compileDirective disk source = (answer, c') → c'.configs = c.configs) ∧
      ∀ e span c', c.compileDirective disk source = (.error (.config e span), c') →
        c' = { c with catalog := (c.catalog.getIndex disk).2 } ∧ (c.catalog.isBuilt = true → c' = c) := by
  unfold compileDirective
  refine ⟨fun e c' h hkind => ?_, fun e span c' h => ?_, fun d hparse honly hvars answer c' h => ?_, fun e span c' h => ?_⟩
  · rcases read_or_lookup h with ⟨e', hread, hanswer, rfl⟩ | ⟨d, reference, -, hlookup⟩
    · cases hanswer
      exact ⟨rfl, compileAt_of_read_error hread⟩
    · exact absurd hkind (hlookup.kind_ne rfl)
  · rcases read_or_lookup h with ⟨e', hread, hanswer, rfl⟩ | ⟨d, reference, -, hlookup⟩
    · cases hanswer
      exact absurd (kind_of_read hread) (CompileError.kind_catalog_ne e span)
    · exact ⟨hlookup.eq_of_error rfl, hlookup.eq_of_search_fails rfl⟩
  · rcases read_or_lookup h with ⟨e', -, -, rfl⟩ | ⟨d', reference, hread, hlookup⟩
    · rfl
    · cases (parse_of_read hread).symm.trans hparse
      have hskips : d.skipsContext = true := by
        rw [Directive.skipsContext, honly, hvars]
        rfl
      rw [hlookup.eq_of_skipsContext hskips]
  · rcases read_or_lookup h with ⟨e', hread, hanswer, rfl⟩ | ⟨d, reference, -, hlookup⟩
    · cases hanswer
      exact absurd (kind_of_read hread) (CompileError.kind_config_ne e span)
    · have hc' := hlookup.eq_of_error rfl
      refine ⟨hc', fun hbuilt => ?_⟩
      rw [hc', Catalog.getIndex_of_isBuilt hbuilt]

end Compiler

end Inclusion
