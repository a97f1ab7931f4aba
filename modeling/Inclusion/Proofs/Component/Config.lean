import Inclusion.Proofs.Component.Variant
/-!
# Configs with distinct keys

What the formats of config documents have in common: `Config.Distinct` says that every context of a config
has distinct keys at every depth. Resolving such a config fills one context with others, so the resolved
context has distinct keys too (`Config.Distinct.resolve`).
-/

namespace Inclusion

section Lists

variable {α β : Type} {R : α → β → Prop} {f : α → Option β} {as : List α} {bs : List β}

theorem exists_mem_of_forall₂ (h : List.Forall₂ R as bs) : ∀ b ∈ bs, ∃ a ∈ as, R a b := by
  induction h with
  | nil => simp
  | cons hab _ ih =>
    refine List.forall_mem_cons.2 ⟨⟨_, List.mem_cons_self, hab⟩, fun c hc => ?_⟩
    obtain ⟨a', ha', hac⟩ := ih c hc
    exact ⟨a', List.mem_cons_of_mem _ ha', hac⟩

theorem forall₂_of_mapM_eq_some (h : as.mapM f = some bs) : List.Forall₂ (fun a b => f a = some b) as bs := by
  induction as generalizing bs with
  | nil =>
    cases h
    exact .nil
  | cons a rest ih =>
    rw [List.mapM_cons] at h
    obtain ⟨b, hb, h⟩ := Option.bind_eq_some_iff.1 h
    obtain ⟨bs', hbs', h⟩ := Option.bind_eq_some_iff.1 h
    cases h
    exact .cons hb (ih hbs')

/-- What a list of readings holds was read from something in the list. -/
theorem exists_mem_of_mapM_eq_some (h : as.mapM f = some bs) : ∀ b ∈ bs, ∃ a ∈ as, f a = some b :=
  exists_mem_of_forall₂ (forall₂_of_mapM_eq_some h)

end Lists

/-- A context that is there has distinct keys at every depth. -/
def OptionDistinct (context : Option Context) : Prop :=
  ∀ c ∈ context, (Value.map c).Distinct

theorem OptionDistinct.none : OptionDistinct none :=
  fun _ h => nomatch h

theorem OptionDistinct.values {context : Option Context} (h : OptionDistinct context) :
    ∀ f ∈ context.getD [], f.2.Distinct := by
  cases context with
  | none => simp
  | some c => exact (Value.distinct_map.1 (h c rfl)).values

namespace Config

/-- The contexts of the config have distinct keys at every depth. -/
structure Distinct (config : Config) : Prop where
  context : OptionDistinct config.context
  variants : ∀ vs ∈ config.variants, ∀ v ∈ vs, OptionDistinct v.context

theorem Distinct.empty : Distinct {} :=
  ⟨.none, by simp⟩

theorem Distinct.of_mem {config : Config} (h : config.Distinct) {v : Variant} (hv : v ∈ config.variants.getD []) :
    OptionDistinct v.context := by
  cases hvariants : config.variants with
  | none => simp [hvariants] at hv
  | some vs =>
    rw [hvariants] at hv
    exact h.variants vs hvariants v hv

theorem Distinct.adds {config : Config} (h : config.Distinct) {variant : Option String} {extra : Context}
    (hadds : config.Adds variant extra) : ∀ f ∈ extra, f.2.Distinct := by
  cases hadds with
  | unasked => simp
  | unnamed => simp
  | unknown _ => simp
  | first _ hsplit _ =>
    refine (h.of_mem ?_).values
    rw [hsplit]
    exact List.mem_append_right _ List.mem_cons_self

theorem Distinct.resolve {config : Config} (h : config.Distinct) (variant : Option String) :
    (Value.map (config.resolve variant)).Distinct := by
  have hseed : ∀ v, Fields.All Value.Distinct (Context.seeded v) := by
    intro v
    refine .singleton ?_
    cases v with
    | none => exact .null
    | some s => exact .string s
  obtain ⟨extra, hadds, hresolve⟩ := config.exists_adds variant
  rw [hresolve]
  exact Value.distinct_map.2 (((hseed _).fill h.context.values).fill (h.adds hadds))

end Config

end Inclusion
