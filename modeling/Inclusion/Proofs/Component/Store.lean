import Inclusion.Component.Store
import Inclusion.Proofs.Component.Json
import Inclusion.Proofs.Component.Toml
import Inclusion.Proofs.Component.Yaml
/-!
# Stores hold configs with distinct keys

Whatever the format, a document that can be read is a config with distinct keys (`Config.distinct_decode`). A
store only keeps what it has read, so the contexts that it gives have distinct keys as well.
-/

namespace Inclusion

theorem Config.distinct_decode {format : Format} {content : String} {config : Config}
    (h : Config.decode format content = some config) : config.Distinct := by
  rw [Config.decode.eq_def] at h
  split at h
  · cases h
    exact .empty
  · cases format with
    | yaml =>
      obtain ⟨document, -, hdocument⟩ := Option.bind_eq_some_iff.1 h
      exact Config.distinct_ofYaml? hdocument
    | json =>
      obtain ⟨json, -, hjson⟩ := Option.bind_eq_some_iff.1 h
      exact Config.distinct_ofJson? hjson
    | toml =>
      obtain ⟨t, ht, htoml⟩ := Option.bind_eq_some_iff.1 h
      exact Config.distinct_ofToml? (Toml.distinct_parse ht) htoml

theorem Config.distinct_read {disk : Disk} {p : Path} {config : Config} (h : Config.read disk p = .ok config) :
    config.Distinct := by
  rw [Config.read] at h
  split at h
  · cases h
  · cases h
  · split at h
    · next hdecode =>
      cases h
      exact Config.distinct_decode hdecode
    · cases h

namespace ConfigStore

/-- The configs that are kept have distinct keys. -/
def Distinct (s : ConfigStore) : Prop :=
  ∀ kept ∈ s.kept, ∀ entry ∈ kept, entry.2.Distinct

theorem distinct_new (keeps : Bool) : (new keeps).Distinct := by
  cases keeps <;> simp [Distinct, new]

variable {s : ConfigStore}

theorem Distinct.kept? {p : Path} {config : Config} (h : s.Distinct) (hkept : s.kept? p = some config) : config.Distinct := by
  obtain ⟨kept, hs, hfind⟩ := Option.bind_eq_some_iff.1 hkept
  obtain ⟨entry, hentry, rfl⟩ := Option.map_eq_some_iff.1 hfind
  exact h kept hs entry (List.mem_of_find?_eq_some hentry)

theorem Distinct.load (h : s.Distinct) (disk : Disk) (p : Path) :
    (s.load disk p).2.Distinct ∧ ∀ config, (s.load disk p).1 = .ok config → config.Distinct := by
  rw [ConfigStore.load]
  split
  · next config hkept =>
    refine ⟨h, fun config' hconfig => ?_⟩
    cases hconfig
    exact h.kept? hkept
  · split
    · next config hread =>
      refine ⟨?_, fun config' hconfig => ?_⟩
      · intro kept hkept entry hentry
        obtain ⟨before, hbefore, rfl⟩ := Option.map_eq_some_iff.1 hkept
        rcases List.mem_cons.1 hentry with rfl | hentry
        · exact Config.distinct_read hread
        · exact h before hbefore entry hentry
      · cases hconfig
        exact Config.distinct_read hread
    · refine ⟨h, fun config' hconfig => ?_⟩
      cases hconfig

theorem Distinct.context (h : s.Distinct) (disk : Disk) (p : Path) (variant : Option String) :
    (s.context disk p variant).2.Distinct ∧
      ∀ c, (s.context disk p variant).1 = .ok c → (Value.map c).Distinct := by
  have hload := h.load disk p
  rw [ConfigStore.context]
  split
  · next config s' heq =>
    rw [heq] at hload
    refine ⟨hload.1, fun c hc => ?_⟩
    cases hc
    exact (hload.2 config rfl).resolve variant
  · next e s' heq =>
    rw [heq] at hload
    refine ⟨hload.1, fun c hc => ?_⟩
    cases hc

end ConfigStore

end Inclusion
