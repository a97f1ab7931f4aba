import Inclusion.Component.Toml
import Inclusion.Proofs.Component.Config
import Inclusion.Proofs.Toml.Distinct
/-!
# Configs in TOML have distinct keys

A config is a record: a table, or an array of its fields. Either way its fields are parts of a tree whose
tables have distinct keys.
-/

namespace Inclusion

namespace Toml

theorem distinct_record? {fields : List Field} {t : Toml} {found : List (Option Toml)} (h : t.Distinct)
    (hrecord : record? fields t = some found) : ∀ field ∈ found, ∀ part ∈ field, part.Distinct := by
  intro field hfield part hpart
  cases hpart
  rw [record?.eq_def] at hrecord
  split at hrecord
  · cases hrecord
    obtain ⟨f, -, hget⟩ := List.mem_map.1 hfield
    exact (distinct_table.1 h).get? hget
  · cases hrecord
    simp at hfield
  · split at hrecord
    · cases hrecord
      rcases List.mem_append.1 (List.mem_of_mem_take hfield) with hmem | hmem
      · obtain ⟨item, hitem, heq⟩ := List.mem_map.1 hmem
        cases heq
        cases h with
        | array h => exact h _ hitem
      · cases (List.mem_replicate.1 hmem).2
    · cases hrecord
  · cases hrecord

/-- A field that can be missing is either missing or read. -/
theorem of_optional? {α : Type} {P : α → Prop} {read : Toml → Option α} {field : Option Toml} {a : Option α}
    (h : ∀ part ∈ field, part.Distinct) (hread : ∀ t b, t.Distinct → read t = some b → P b)
    (hoptional : optional? read field = some a) : ∀ b ∈ a, P b := by
  intro b hb
  cases hb
  cases field with
  | none => cases hoptional
  | some t =>
    obtain ⟨b', hb', heq⟩ := Option.map_eq_some_iff.1 hoptional
    cases heq
    exact hread t b (h t rfl) hb'

end Toml

theorem Variant.distinct_ofToml? {t : Toml} {v : Variant} (h : t.Distinct) (hv : Variant.ofToml? t = some v) :
    OptionDistinct v.context := by
  rw [Variant.ofToml?.eq_def] at hv
  split at hv
  · next hrecord =>
    split at hv
    · next hcontext =>
      cases hv
      exact Toml.of_optional? (Toml.distinct_record? h hrecord _ (by simp)) (fun _ _ h => h.map?) hcontext
    · cases hv
  · cases hv

theorem Config.distinct_variantsOfToml? {t : Toml} {vs : List Variant} (h : t.Distinct)
    (hvs : Config.variantsOfToml? t = some vs) : ∀ v ∈ vs, OptionDistinct v.context := by
  rw [Config.variantsOfToml?.eq_def] at hvs
  split at hvs
  · cases h with
    | array h =>
      intro v hv
      obtain ⟨item, hmem, hitem⟩ := exists_mem_of_mapM_eq_some hvs v hv
      exact Variant.distinct_ofToml? (h item hmem) hitem
  · cases hvs

theorem Config.distinct_ofToml? {t : Toml} {config : Config} (h : t.Distinct)
    (hconfig : Config.ofToml? t = some config) : config.Distinct := by
  rw [Config.ofToml?.eq_def] at hconfig
  split at hconfig
  · next hrecord =>
    split at hconfig
    · next hcontext hvariants =>
      cases hconfig
      have hparts := Toml.distinct_record? h hrecord
      exact ⟨Toml.of_optional? (hparts _ (by simp)) (fun _ _ h => h.map?) hcontext,
        Toml.of_optional? (hparts _ (by simp)) (fun _ _ h => Config.distinct_variantsOfToml? h) hvariants⟩
    · cases hconfig
  · cases hconfig

end Inclusion
