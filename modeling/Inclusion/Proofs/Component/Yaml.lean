import Inclusion.Component.Yaml
import Inclusion.Proofs.Component.Config
/-!
# Configs in YAML have distinct keys

A mapping can hold a key twice. Its entries are put one after the other, so the value of the mapping has each
key once. Decoding counts the aliases that it follows; `Gives m P` leaves the count out and says that `P` holds
of whatever `m` decodes.
-/

namespace Inclusion

namespace Yaml

namespace Decode

variable {α β : Type}

/-- Whatever is decoded satisfies `P`. -/
def Gives (m : Decode α) (P : α → Prop) : Prop :=
  ∀ left a left', m.run left = some (a, left') → P a

theorem gives_pure {P : α → Prop} {a : α} (h : P a) : Gives (pure a) P := by
  intro left b left' hb
  cases hb
  exact h

theorem gives_failure {P : α → Prop} : Gives failure P := by
  intro left b left' hb
  cases hb

theorem gives_any (m : Decode α) : Gives m fun _ => True :=
  fun _ _ _ _ => trivial

theorem gives_bind {m : Decode α} {f : α → Decode β} {P : α → Prop} {Q : β → Prop} (hm : Gives m P)
    (hf : ∀ a, P a → Gives (f a) Q) : Gives (m >>= f) Q := by
  intro left b left' hb
  rw [StateT.run_bind] at hb
  obtain ⟨⟨a, between⟩, ha, hb⟩ := Option.bind_eq_some_iff.1 hb
  exact hf a (hm left a between ha) between b left' hb

theorem Gives.imp {m : Decode α} {P Q : α → Prop} (hm : Gives m P) (h : ∀ a, P a → Q a) : Gives m Q :=
  fun left a left' ha => h a (hm left a left' ha)

theorem gives_forall₂ {R : α → β → Prop} {f : α → Decode β} {as : List α} (h : ∀ a ∈ as, Gives (f a) (R a)) :
    Gives (as.mapM f) (List.Forall₂ R as) := by
  induction as with
  | nil => exact gives_pure .nil
  | cons a rest ih =>
    rw [List.mapM_cons]
    refine gives_bind (h a List.mem_cons_self) fun b hb => ?_
    refine gives_bind (ih fun a' ha' => h a' (List.mem_cons_of_mem _ ha')) fun bs hbs => ?_
    exact gives_pure (.cons hb hbs)

theorem gives_mapM {P : β → Prop} {f : α → Decode β} {as : List α} (h : ∀ a ∈ as, Gives (f a) P) :
    Gives (as.mapM f) fun bs => ∀ b ∈ bs, P b :=
  (gives_forall₂ h).imp fun bs hbs b hb => by
    obtain ⟨a, -, hab⟩ := exists_mem_of_forall₂ hbs b hb
    exact hab

theorem gives_foldlM {P : β → Prop} {f : β → α → Decode β} {init : β} {as : List α} (hinit : P init)
    (h : ∀ b, P b → ∀ a ∈ as, Gives (f b a) P) : Gives (as.foldlM f init) P := by
  induction as generalizing init with
  | nil => exact gives_pure hinit
  | cons a rest ih =>
    rw [List.foldlM_cons]
    refine gives_bind (h init hinit a List.mem_cons_self) fun b hb => ?_
    exact ih hb fun b' hb' a' ha' => h b' hb' a' (List.mem_cons_of_mem _ ha')

end Decode

namespace Document

open Decode

variable (d : Document)

theorem gives_value (depth : Nat) (node : Node Nat) : Gives (d.value depth node) Value.Distinct := by
  rw [value.eq_def]
  refine gives_bind (gives_any _) fun target _ => ?_
  split
  · exact gives_failure
  · split
    · exact gives_failure
    · dsimp only
      split
      · exact gives_pure (.scalar _)
      · exact gives_failure
  · split
    · exact gives_failure
    · cases depth with
      | zero => exact gives_failure
      | succ depth =>
        exact gives_bind (gives_mapM fun item _ => gives_value depth item) fun vs hvs => gives_pure (.list hvs)
  · split
    · exact gives_failure
    · cases depth with
      | zero => exact gives_failure
      | succ depth =>
        refine gives_bind (gives_foldlM .nil fun fields hfields entry _ => ?_) fun fields hfields =>
          gives_pure (Value.distinct_map.2 hfields)
        refine gives_bind (gives_any _) fun key _ => ?_
        exact gives_bind (gives_value depth entry.2) fun v hv => gives_pure (hfields.put hv)

theorem gives_fields (depth : Nat) (node : Node Nat) :
    Gives (d.fields depth node) fun c => (Value.map c).Distinct := by
  rw [fields.eq_def]
  refine gives_bind (gives_any _) fun entries _ => ?_
  split
  · exact gives_pure (Value.distinct_map.2 .nil)
  · exact gives_failure
  · refine gives_foldlM (Value.distinct_map.2 .nil) fun fields hfields entry _ => ?_
    refine gives_bind (d.gives_value _ entry.2) fun v hv => gives_pure ?_
    exact Value.distinct_map.2 ((Value.distinct_map.1 hfields).put hv)

theorem gives_optional {α : Type} {P : α → Prop} {read : Node Nat → Decode α} (h : ∀ node, Gives (read node) P)
    (node : Node Nat) : Gives (d.optional read node) fun found => ∀ a ∈ found, P a := by
  have hread : ∀ n, Gives (do return some (← read n)) fun found => ∀ a ∈ found, P a := by
    intro n
    refine gives_bind (h n) fun a ha => gives_pure ?_
    rintro b ⟨⟩
    exact ha
  rw [optional.eq_def]
  refine gives_bind (gives_any _) fun target _ => ?_
  split
  · split
    · split
      · split
        · exact gives_pure (by simp)
        · exact gives_failure
      · exact hread _
    · split
      · exact gives_pure (by simp)
      · exact hread _
  · exact hread _

theorem gives_optionalMember {α : Type} {P : α → Prop} {read : Node Nat → Decode α}
    (h : ∀ node, Gives (read node) P) (key : String) (entries : List (String × Node Nat)) :
    Gives (d.optionalMember read key entries) fun found => ∀ a ∈ found, P a := by
  rw [optionalMember.eq_def]
  refine gives_bind (gives_any _) fun found _ => ?_
  split
  · exact gives_pure (by simp)
  · exact d.gives_optional h _

theorem gives_items {α : Type} {P : α → Prop} {read : Nat → Node Nat → Decode α}
    (h : ∀ depth node, Gives (read depth node) P) (depth : Nat) (node : Node Nat) :
    Gives (d.items depth read node) fun as => ∀ a ∈ as, P a := by
  rw [items.eq_def]
  refine gives_bind (gives_any _) fun target _ => ?_
  split
  · exact gives_mapM fun item _ => h _ item
  · split
    · exact gives_pure (by simp)
    · exact gives_failure

end Document

end Yaml

open Yaml Decode

theorem Variant.gives_ofYaml (d : Document) (depth : Nat) (node : Node Nat) :
    Gives (Variant.ofYaml d depth node) fun v => OptionDistinct v.context := by
  rw [Variant.ofYaml.eq_def]
  refine gives_bind (gives_any _) fun entries _ => gives_bind (gives_any _) fun name _ => ?_
  split
  · exact gives_failure
  · refine gives_bind (gives_any _) fun name _ => ?_
    exact gives_bind (d.gives_optionalMember (d.gives_fields _) _ _) fun context hcontext => gives_pure hcontext

theorem Config.gives_ofYaml (d : Document) (depth : Nat) (node : Node Nat) :
    Gives (Config.ofYaml d depth node) Config.Distinct := by
  rw [Config.ofYaml.eq_def]
  refine gives_bind (gives_any _) fun entries _ => gives_bind (gives_any _) fun default _ => ?_
  refine gives_bind (d.gives_optionalMember (d.gives_fields _) _ _) fun context hcontext => ?_
  refine gives_bind (d.gives_optionalMember (d.gives_items (Variant.gives_ofYaml d) _) _ _) fun vs hvs => ?_
  exact gives_pure ⟨hcontext, hvs⟩

theorem Config.distinct_ofYaml? {document : Option Document} {config : Config}
    (h : Config.ofYaml? document = some config) : config.Distinct := by
  cases document with
  | none =>
    cases h
    exact .empty
  | some d =>
    obtain ⟨found, hfound, rfl⟩ := Option.map_eq_some_iff.1 h
    obtain ⟨⟨found', left⟩, hrun, rfl⟩ := Option.map_eq_some_iff.1 hfound
    have hdistinct := d.gives_optional (Config.gives_ofYaml d _) _ _ _ _ hrun
    cases found' with
    | none => exact .empty
    | some c => exact hdistinct c rfl

end Inclusion
