import Inclusion.Component.Json
import Inclusion.Proofs.Component.Config
/-!
# Configs in JSON have distinct keys

An object can hold a key twice. Its members are put one after the other, so the value of the object has each
key once, and with it every context of a config that is read from JSON.
-/

namespace Inclusion

namespace Json

mutual

theorem distinct_toValue (depth : Nat) : ∀ (json : Json) {v : Value}, json.toValue depth = some v → v.Distinct
  | .null, v, h => by
    cases h
    exact .null
  | .bool b, v, h => by
    cases h
    exact .scalar _
  | .number n, v, h => by
    obtain ⟨n', -, rfl⟩ := Option.map_eq_some_iff.1 h
    exact .scalar _
  | .string contents, v, h => by
    obtain ⟨s, -, rfl⟩ := Option.map_eq_some_iff.1 h
    exact .string s
  | .array items, v, h => by
    cases depth with
    | zero => cases h
    | succ depth =>
      obtain ⟨vs, hvs, rfl⟩ := Option.map_eq_some_iff.1 h
      exact .list (distinct_toItems depth items hvs)
  | .object members, v, h => by
    cases depth with
    | zero => cases h
    | succ depth =>
      obtain ⟨fields, hfields, rfl⟩ := Option.map_eq_some_iff.1 h
      exact Value.distinct_map.2 (all_toFields depth members .nil hfields)

theorem distinct_toItems (depth : Nat) :
    ∀ (items : List Json) {vs : List Value}, toItems depth items = some vs → ∀ v ∈ vs, v.Distinct
  | [], vs, h => by
    cases h
    simp
  | json :: rest, vs, h => by
    rw [toItems.eq_def] at h
    dsimp only at h
    split at h
    · next w ws hw hws =>
      cases h
      exact List.forall_mem_cons.2 ⟨distinct_toValue depth json hw, distinct_toItems depth rest hws⟩
    · cases h

theorem all_toFields (depth : Nat) :
    ∀ (members : List (Option String × Json)) {done fields : Fields Value}, done.All Value.Distinct →
      toFields depth done members = some fields → fields.All Value.Distinct
  | [], done, fields, hd, h => by
    cases h
    exact hd
  | (key, json) :: rest, done, fields, hd, h => by
    rw [toFields.eq_def] at h
    dsimp only at h
    split at h
    · next k w hw => exact all_toFields depth rest (hd.put (distinct_toValue depth json hw)) h
    · cases h

end

theorem distinct_object? {depth : Nat} {json : Json} {fields : Fields Value} (h : json.object? depth = some fields) :
    (Value.map fields).Distinct := by
  rw [object?.eq_def] at h
  split at h
  · split at h
    · next hvalue =>
      cases h
      exact distinct_toValue depth _ hvalue
    · cases h
  · cases h

theorem distinct_optionalObject? {depth : Nat} {json : Json} {c : Option Context}
    (h : optionalObject? depth json = some c) : OptionDistinct c := by
  rw [optionalObject?.eq_def] at h
  split at h
  · cases h
    exact .none
  · obtain ⟨fields, hobject, rfl⟩ := Option.map_eq_some_iff.1 h
    intro c hc
    cases hc
    exact distinct_object? hobject

/-- A member that can be missing is either missing or read. -/
theorem of_optionalMember? {α : Type} {P : Option α → Prop} {read : Json → Option (Option α)} {key : String}
    {members : List (Option String × Json)} {a : Option α} (hnone : P none)
    (hread : ∀ json b, read json = some b → P b) (h : optionalMember? read key members = some a) : P a := by
  rw [optionalMember?] at h
  split at h
  · cases h
  · cases h
    exact hnone
  · exact hread _ _ h

end Json

theorem Variant.distinct_ofJson? {depth : Nat} {json : Json} {v : Variant} (h : Variant.ofJson? depth json = some v) :
    OptionDistinct v.context := by
  rw [Variant.ofJson?.eq_def] at h
  split at h
  · split at h
    · split at h
      · next hcontext =>
        cases h
        exact Json.of_optionalMember? .none (fun _ _ => Json.distinct_optionalObject?) hcontext
      · cases h
    · cases h
  · cases h
    exact .none
  · obtain ⟨c, hc, rfl⟩ := Option.map_eq_some_iff.1 h
    exact Json.distinct_optionalObject? hc
  · cases h

theorem Config.distinct_variantsOfJson? {depth : Nat} {json : Json} {variants : Option (List Variant)}
    (h : Config.variantsOfJson? depth json = some variants) :
    ∀ vs ∈ variants, ∀ v ∈ vs, OptionDistinct v.context := by
  rw [Config.variantsOfJson?.eq_def] at h
  split at h
  · cases h
    simp
  · obtain ⟨vs, hvs, rfl⟩ := Option.map_eq_some_iff.1 h
    intro vs' hvs' v hv
    cases hvs'
    obtain ⟨item, -, hitem⟩ := exists_mem_of_mapM_eq_some hvs v hv
    exact Variant.distinct_ofJson? hitem
  · cases h

theorem Config.distinct_ofJson? {json : Json} {config : Config} (h : Config.ofJson? json = some config) :
    config.Distinct := by
  rw [Config.ofJson?.eq_def] at h
  split at h
  · cases h
    exact .empty
  · split at h
    · split at h
      · next hcontext hvariants =>
        cases h
        exact ⟨Json.of_optionalMember? .none (fun _ _ => Json.distinct_optionalObject?) hcontext,
          Json.of_optionalMember? (by simp) (fun _ _ => Config.distinct_variantsOfJson?) hvariants⟩
      · cases h
    · cases h
  · split at h
    · cases h
    · split at h
      · next hcontext hvariants =>
        cases h
        exact ⟨Json.distinct_optionalObject? hcontext, Config.distinct_variantsOfJson? hvariants⟩
      · cases h
  · cases h

end Inclusion
