import Inclusion.Component.Config
import Inclusion.Proofs.Value.Distinct
/-!
# Where the context of a variant comes from

Resolving a config fills the name of the variant up with the base context and then with what the variant adds
(`exists_adds`). A fill never overwrites, so at each key the first of the three that has it wins, and the keys stand in
the order in which they first come (`resolve_precedence`). What a variant adds is said without looking at the search:
`Adds` names the first variant of the name, and the cases in which nothing is added.
-/

namespace Inclusion

namespace Config

variable {config : Config}

/-- What the variant that is asked for adds to the base context: the context of the first variant of its name, if that
variant has one. Nothing is added if no variant is asked for, if the name is empty, or if no variant has it. -/
inductive Adds (config : Config) : Option String → Context → Prop
  | unasked : Adds config none []
  | unnamed : Adds config (some "") []
  | unknown {name : String} (h : ∀ v ∈ config.variants.getD [], v.name ≠ name) : Adds config (some name) []
  | first {before after : List Variant} {v : Variant} (hname : v.name ≠ "")
    (h : config.variants.getD [] = before ++ v :: after) (hbefore : ∀ w ∈ before, w.name ≠ v.name) :
    Adds config (some v.name) (v.context.getD [])

/-! ### The search for a variant -/

theorem name_ne_of_variant?_eq_none {name : String} (h : config.variant? name = none) :
    ∀ v ∈ config.variants.getD [], v.name ≠ name := by
  intro v hv
  simpa using List.find?_eq_none.1 h v hv

theorem exists_of_variant?_eq_some {name : String} {v : Variant} (h : config.variant? name = some v) :
    v.name = name ∧ ∃ before after, config.variants.getD [] = before ++ v :: after ∧ ∀ w ∈ before, w.name ≠ name := by
  obtain ⟨hname, before, after, hsplit, hbefore⟩ := List.find?_eq_some_iff_append.1 h
  exact ⟨by simpa using hname, before, after, hsplit, fun w hw => by simpa using hbefore w hw⟩

/-! ### The three sources of a context -/

theorem resolve_some (config : Config) (name : String) :
    config.resolve (some name) =
      let based := (Context.seeded (some name)).fill (config.context.getD [])
      if name = "" then based
      else based.fill (((config.variant? name).bind Variant.context).getD []) := by
  rw [resolve.eq_def]
  dsimp only
  cases config.variant? name <;> rfl

theorem exists_adds (config : Config) (variant : Option String) :
    ∃ extra, config.Adds variant extra ∧
      config.resolve variant =
        ((Context.seeded (variant.or config.defaultVariant)).fill (config.context.getD [])).fill extra := by
  cases variant with
  | none => exact ⟨[], .unasked, rfl⟩
  | some name =>
    rw [resolve_some]
    by_cases hempty : name = ""
    · subst hempty
      exact ⟨[], .unnamed, rfl⟩
    · dsimp only
      rw [if_neg hempty]
      cases hvariant : config.variant? name with
      | none => exact ⟨[], .unknown (name_ne_of_variant?_eq_none hvariant), rfl⟩
      | some v =>
        obtain ⟨rfl, before, after, hsplit, hbefore⟩ := exists_of_variant?_eq_some hvariant
        exact ⟨v.context.getD [], .first hempty hsplit hbefore, rfl⟩

theorem get?_seeded (variant : Option String) (key : String) :
    Fields.get? key (Context.seeded variant) =
      if key = Context.variantKey then some (variant.elim .null .string) else none := by
  rw [Context.seeded, Fields.get?_cons, Fields.get?_nil]
  cases variant <;> simp [eq_comm]

/-- The name of the variant is the one that is asked for, else the default, else `null`; it stands first, and no context
has a say in it. Every other key has its value from the base context, or else from what the variant adds, and the keys
of the two follow in this order, each where it first comes. -/
theorem resolve_precedence (config : Config) (variant : Option String) :
    ∃ extra, config.Adds variant extra ∧
      (∀ key, Fields.get? key (config.resolve variant) =
        if key = Context.variantKey then some ((variant.or config.defaultVariant).elim .null .string)
        else (Fields.get? key (config.context.getD [])).or (Fields.get? key extra)) ∧
      Fields.keys (config.resolve variant) =
        (Context.variantKey :: (Fields.keys (config.context.getD []) ++ Fields.keys extra)).eraseDups := by
  obtain ⟨extra, hadds, hresolve⟩ := config.exists_adds variant
  refine ⟨extra, hadds, fun key => ?_, ?_⟩
  · rw [hresolve, Fields.get?_fill, Fields.get?_fill, get?_seeded]
    by_cases hkey : key = Context.variantKey
    · rw [if_pos hkey, if_pos hkey, Option.some_or, Option.some_or]
    · rw [if_neg hkey, if_neg hkey, Option.none_or]
  · have hseed : Fields.keys (Context.seeded (variant.or config.defaultVariant)) = [Context.variantKey].eraseDups := by
      simp [Context.seeded, List.eraseDups_cons]
    have hbased := Fields.keys_fill hseed (config.context.getD [])
    rw [hresolve, Fields.keys_fill hbased, List.append_assoc, List.singleton_append]

/-- The base context cannot name the variant, and the second variant of the name is not looked at. -/
example :
    let config : Config := {
      context := some [("title", .null), ("variant", .string "base")]
      variants := some [⟨"wide", some [("size", .int 2), ("title", .int 1)]⟩, ⟨"wide", some [("dense", .null)]⟩] }
    Fields.keys (config.resolve (some "wide")) = ["variant", "title", "size"] := by
  decide

end Config

end Inclusion
