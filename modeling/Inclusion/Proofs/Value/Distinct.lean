import Inclusion.Value
import Mathlib.Data.List.Nodup
/-!
# Fields with distinct keys

A list of pairs can hold a key twice, and then it is no map: `get?` sees the first occurrence, while putting
the fields elsewhere keeps the last one. Every list of fields that the library builds has distinct keys, at
every depth. That is `Value.Distinct`, and `Fields.All P` is one level of it: the keys are distinct and `P`
holds of every value. Putting, overlaying, filling and filtering keep `Fields.All P`, so whoever builds fields
in these ways has nothing else to show. For fields with distinct keys, `get?_overlay` and `keys_overlay` say
what an overlay holds and in which order, and nothing else tells them apart (`ext_of_nodup`); so overlays can be
regrouped (`overlay_assoc`). What a fill holds is said for all fields, by `get?_fill` and `keys_fill`.
-/

namespace Inclusion

namespace Fields

variable {α β κ : Type}

@[simp] theorem keys_nil : keys ([] : Fields α κ) = [] := rfl

@[simp] theorem keys_cons (f : κ × α) (fields : Fields α κ) : keys (f :: fields) = f.1 :: keys fields := rfl

@[simp] theorem keys_append (as bs : Fields α κ) : keys (as ++ bs) = keys as ++ keys bs :=
  List.map_append

section

variable [DecidableEq κ]

@[simp] theorem get?_nil (key : κ) : get? key ([] : Fields α κ) = none := rfl

theorem get?_cons (key : κ) (f : κ × α) (fields : Fields α κ) :
    get? key (f :: fields) = if f.1 = key then some f.2 else get? key fields := rfl

theorem get?_eq_none_iff {key : κ} {fields : Fields α κ} : get? key fields = none ↔ key ∉ keys fields := by
  induction fields with
  | nil => simp
  | cons f rest ih =>
    by_cases h : f.1 = key
    · simp [get?_cons, h]
    · rw [get?_cons, if_neg h, ih, keys_cons, List.mem_cons, not_or, and_iff_right (Ne.symm h)]

theorem mem_of_get? {key : κ} {v : α} {fields : Fields α κ} (h : get? key fields = some v) :
    (key, v) ∈ fields := by
  induction fields with
  | nil => simp at h
  | cons f rest ih =>
    rw [get?_cons] at h
    split at h
    · next hkey =>
      obtain ⟨k, w⟩ := f
      simp only [Option.some.injEq] at h
      subst hkey h
      exact List.mem_cons_self
    · exact List.mem_cons_of_mem _ (ih h)

theorem get?_eq_some_iff {key : κ} {v : α} {fields : Fields α κ} (h : (keys fields).Nodup) :
    get? key fields = some v ↔ (key, v) ∈ fields := by
  refine ⟨mem_of_get?, fun hmem => ?_⟩
  induction fields with
  | nil => cases hmem
  | cons f rest ih =>
    rw [keys_cons, List.nodup_cons] at h
    rw [get?_cons]
    cases List.mem_cons.1 hmem with
    | inl heq => rw [← heq, if_pos rfl]
    | inr hrest =>
      have hne : f.1 ≠ key := by
        rintro rfl
        exact h.1 (List.mem_map.2 ⟨_, hrest, rfl⟩)
      rw [if_neg hne, ih h.2 hrest]

theorem put_of_notMem {key : κ} (v : α) {fields : Fields α κ} (h : key ∉ keys fields) :
    put key v fields = fields ++ [(key, v)] := by
  induction fields with
  | nil => rfl
  | cons f rest ih =>
    obtain ⟨k, w⟩ := f
    rw [keys_cons, List.mem_cons, not_or] at h
    rw [put, if_neg (Ne.symm h.1), ih h.2, List.cons_append]

theorem mem_put {key : κ} {v : α} {fields : Fields α κ} {f : κ × α} (h : f ∈ put key v fields) :
    f = (key, v) ∨ f ∈ fields := by
  induction fields with
  | nil => exact .inl (List.mem_singleton.1 h)
  | cons g rest ih =>
    obtain ⟨k, w⟩ := g
    rw [put] at h
    split at h
    · next hkey =>
      rcases List.mem_cons.1 h with rfl | hrest
      · exact .inl (by rw [hkey])
      · exact .inr (List.mem_cons_of_mem _ hrest)
    · rcases List.mem_cons.1 h with rfl | hrest
      · exact .inr List.mem_cons_self
      · exact (ih hrest).imp_right (List.mem_cons_of_mem _)

theorem nodup_keys_put (key : κ) (v : α) {fields : Fields α κ} (h : (keys fields).Nodup) :
    (keys (put key v fields)).Nodup := by
  rw [keys_put]
  split
  · exact h
  · next hkey =>
    rw [← List.concat_eq_append]
    exact List.Nodup.concat hkey h

end

/-! ### One level of distinct keys -/

/-- The keys are distinct, and `P` holds of the values. -/
structure All (P : α → Prop) (fields : Fields α) : Prop where
  nodup : (keys fields).Nodup
  values : ∀ f ∈ fields, P f.2

namespace All

variable {P : α → Prop} {fields extra : Fields α}

theorem nil : All P ([] : Fields α) :=
  ⟨List.nodup_nil, by simp⟩

theorem cons {key : String} {v : α} (hkey : key ∉ keys fields) (hv : P v) (h : All P fields) :
    All P ((key, v) :: fields) := by
  refine ⟨List.nodup_cons.2 ⟨hkey, h.nodup⟩, ?_⟩
  intro f hf
  rcases List.mem_cons.1 hf with rfl | hf
  · exact hv
  · exact h.values f hf

theorem singleton {key : String} {v : α} (hv : P v) : All P [(key, v)] :=
  cons (by simp) hv nil

theorem get? {key : String} {v : α} (h : All P fields) (hget : Fields.get? key fields = some v) : P v :=
  h.values _ (mem_of_get? hget)

theorem put {key : String} {v : α} (hv : P v) (h : All P fields) : All P (Fields.put key v fields) := by
  refine ⟨nodup_keys_put key v h.nodup, ?_⟩
  intro f hf
  rcases mem_put hf with rfl | hf
  · exact hv
  · exact h.values f hf

theorem filter (p : String × α → Bool) (h : All P fields) : All P (fields.filter p) :=
  ⟨h.nodup.sublist (List.filter_sublist.map Prod.fst), fun f hf => h.values f (List.mem_filter.1 hf).1⟩

theorem overlay (h : All P fields) (he : ∀ f ∈ extra, P f.2) : All P (Fields.overlay fields extra) := by
  rw [Fields.overlay]
  induction extra generalizing fields with
  | nil => exact h
  | cons f rest ih =>
    exact ih (h.put (he f List.mem_cons_self)) fun g hg => he g (List.mem_cons_of_mem _ hg)

theorem fill (h : All P fields) (he : ∀ f ∈ extra, P f.2) : All P (Fields.fill fields extra) := by
  rw [Fields.fill]
  induction extra generalizing fields with
  | nil => exact h
  | cons f rest ih =>
    refine ih ?_ fun g hg => he g (List.mem_cons_of_mem _ hg)
    beta_reduce
    split
    · exact h
    · exact h.put (he f List.mem_cons_self)

/-- Changing the values alone keeps the keys distinct. -/
theorem map {Q : β → Prop} {g : α → β} (h : All P fields) (hg : ∀ v, P v → Q (g v)) :
    All Q (fields.map fun f => (f.1, g f.2)) := by
  refine ⟨?_, ?_⟩
  · have hkeys : keys (fields.map fun f => (f.1, g f.2)) = keys fields := by
      simp only [keys, List.map_map, Function.comp_def]
    exact hkeys ▸ h.nodup
  · intro f hf
    obtain ⟨f', hf', rfl⟩ := List.mem_map.1 hf
    exact hg _ (h.values f' hf')

end All

/-! ### What an overlay holds -/

theorem get?_overlay (base : Fields α) {above : Fields α} (h : (keys above).Nodup) (key : String) :
    get? key (overlay base above) = (get? key above).or (get? key base) := by
  rw [overlay]
  induction above generalizing base with
  | nil => rfl
  | cons f rest ih =>
    obtain ⟨hf, hrest⟩ := List.nodup_cons.1 h
    rw [List.foldl_cons, ih _ hrest, get?_put, get?_cons]
    by_cases hkey : f.1 = key
    · rw [if_pos hkey.symm, if_pos hkey, get?_eq_none_iff.2 (hkey ▸ hf)]
      rfl
    · rw [if_neg (Ne.symm hkey), if_neg hkey]

theorem keys_overlay (base : Fields α) {above : Fields α} (h : (keys above).Nodup) :
    keys (overlay base above) = keys base ++ (keys above).filter (· ∉ keys base) := by
  rw [overlay]
  induction above generalizing base with
  | nil => simp
  | cons f rest ih =>
    obtain ⟨hf, hrest⟩ := List.nodup_cons.1 h
    rw [List.foldl_cons, ih _ hrest, keys_put, keys_cons]
    by_cases hkey : f.1 ∈ keys base
    · rw [if_pos hkey, List.filter_cons_of_neg (by simpa using hkey)]
    · -- the new key is at the end of the base now, where the other keys do not look for it
      have hsame : (keys rest).filter (· ∉ keys base ++ [f.1]) = (keys rest).filter (· ∉ keys base) := by
        refine List.filter_congr fun k hk => ?_
        have hne : k ≠ f.1 := fun he => hf (he ▸ hk)
        simp [hne]
      rw [if_neg hkey, List.filter_cons_of_pos (by simpa using hkey), hsame, List.append_assoc,
        List.singleton_append]

/-- Fields with distinct keys are told by the order of the keys and by what is found at them. -/
theorem ext_of_nodup {as bs : Fields α} (h : (keys as).Nodup) (hkeys : keys as = keys bs)
    (hget : ∀ key, get? key as = get? key bs) : as = bs := by
  induction as generalizing bs with
  | nil =>
    cases bs with
    | nil => rfl
    | cons g others => cases hkeys
  | cons f rest ih =>
    cases bs with
    | nil => cases hkeys
    | cons g others =>
      obtain ⟨hkey, hrest⟩ := List.cons.inj hkeys
      obtain ⟨hf, hnodup⟩ := List.nodup_cons.1 h
      have hvalue : f.2 = g.2 := by
        have := hget f.1
        rwa [get?_cons, get?_cons, if_pos rfl, if_pos hkey.symm, Option.some.injEq] at this
      have htail : ∀ key, get? key rest = get? key others := by
        intro key
        by_cases hk : f.1 = key
        · have hg : f.1 ∉ keys others := fun hmem => hf (hrest.symm ▸ hmem)
          rw [← hk, get?_eq_none_iff.2 hf, get?_eq_none_iff.2 hg]
        · have := hget key
          rwa [get?_cons, get?_cons, if_neg hk, if_neg (hkey ▸ hk)] at this
      rw [Prod.ext hkey hvalue, ih hnodup hrest htail]

theorem nodup_keys_overlay {base above : Fields α} (hbase : (keys base).Nodup) : (keys (overlay base above)).Nodup :=
  (All.overlay (P := fun _ => True) ⟨hbase, by simp⟩ (by simp)).nodup

theorem keys_overlay_overlay (as : Fields α) {bs cs : Fields α} (hb : (keys bs).Nodup) (hc : (keys cs).Nodup) :
    keys (overlay (overlay as bs) cs) = keys as ++ (keys bs).filter (· ∉ keys as) ++
      (keys cs).filter fun key => key ∉ keys as ∧ key ∉ keys bs := by
  rw [keys_overlay _ hc, keys_overlay _ hb]
  congr 1
  refine List.filter_congr fun key _ => ?_
  by_cases ha : key ∈ keys as <;> by_cases hb : key ∈ keys bs <;> simp [ha, hb]

/-- Of three fields put over each other it does not matter which two are put together first. -/
theorem overlay_assoc {as bs cs : Fields α} (ha : (keys as).Nodup) (hb : (keys bs).Nodup) (hc : (keys cs).Nodup) :
    overlay (overlay as bs) cs = overlay as (overlay bs cs) := by
  have hbc : (keys (overlay bs cs)).Nodup := nodup_keys_overlay hb
  refine ext_of_nodup (nodup_keys_overlay (nodup_keys_overlay ha)) ?_ fun key => ?_
  · rw [keys_overlay_overlay _ hb hc, keys_overlay _ hbc, keys_overlay _ hc, List.filter_append, List.filter_filter,
      List.append_assoc]
    simp only [Bool.decide_and]
  · rw [get?_overlay _ hc, get?_overlay _ hb, get?_overlay _ hbc, get?_overlay _ hc, Option.or_assoc]

/-! ### What a fill holds -/

theorem get?_fill (base extra : Fields α) (key : String) :
    get? key (fill base extra) = (get? key base).or (get? key extra) := by
  rw [fill]
  induction extra generalizing base with
  | nil => rw [List.foldl_nil, get?_nil, Option.or_none]
  | cons f rest ih =>
    rw [List.foldl_cons, ih, get?_cons]
    by_cases hthere : f.1 ∈ keys base
    · rw [if_pos (List.contains_iff_mem.2 hthere)]
      by_cases hkey : f.1 = key
      · obtain ⟨v, hv⟩ := Option.ne_none_iff_exists'.1 (mt get?_eq_none_iff.1 (not_not.2 (hkey ▸ hthere)))
        rw [hv, Option.some_or, Option.some_or]
      · rw [if_neg hkey]
    · rw [if_neg (mt List.contains_iff_mem.1 hthere), get?_put]
      by_cases hkey : f.1 = key
      · have hbase : get? key base = none := get?_eq_none_iff.2 (hkey ▸ hthere)
        rw [if_pos hkey.symm, if_pos hkey, hbase, Option.some_or, Option.none_or]
      · rw [if_neg (Ne.symm hkey), if_neg hkey]

/-- A key at the end is kept unless it is there already. -/
theorem eraseDups_concat (ks : List String) (key : String) :
    (ks ++ [key]).eraseDups = if key ∈ ks then ks.eraseDups else ks.eraseDups ++ [key] := by
  have hsingle : [key].eraseDups = [key] := by simp [List.eraseDups_cons]
  rw [List.eraseDups_append, List.cons_removeAll]
  by_cases hmem : key ∈ ks
  · simp [hmem]
  · simp [hmem, hsingle]

/-- Of keys that stand more than once the first one counts. -/
theorem keys_fill {base : Fields α} {ks : List String} (h : keys base = ks.eraseDups) (extra : Fields α) :
    keys (fill base extra) = (ks ++ keys extra).eraseDups := by
  rw [fill]
  induction extra generalizing base ks with
  | nil => rw [List.foldl_nil, keys_nil, List.append_nil, h]
  | cons f rest ih =>
    have hthere : f.1 ∈ keys base ↔ f.1 ∈ ks := by rw [h, List.mem_eraseDups]
    have hstep : keys (if base.keys.contains f.1 then base else put f.1 f.2 base) = (ks ++ [f.1]).eraseDups := by
      rw [eraseDups_concat]
      by_cases hmem : f.1 ∈ ks
      · rw [if_pos (List.contains_iff_mem.2 (hthere.2 hmem)), if_pos hmem, h]
      · rw [if_neg (mt List.contains_iff_mem.1 (mt hthere.1 hmem)), keys_put, if_neg (mt hthere.1 hmem), if_neg hmem, h]
    rw [List.foldl_cons, ih hstep, keys_cons, List.append_assoc, List.singleton_append]

end Fields

/-! ### Distinct keys at every depth -/

namespace Value

/-- Every map in the value has distinct keys. -/
inductive Distinct : Value → Prop
  | scalar (s : Scalar) : Distinct (.scalar s)
  | list {items : List Value} (h : ∀ v ∈ items, Distinct v) : Distinct (.list items)
  | map {fields : Fields Value} (hkeys : (Fields.keys fields).Nodup) (h : ∀ f ∈ fields, Distinct f.2) :
    Distinct (.map fields)

theorem distinct_map {fields : Fields Value} : (Value.map fields).Distinct ↔ fields.All Distinct := by
  constructor
  · rintro ⟨⟩
    exact ⟨by assumption, by assumption⟩
  · intro h
    exact Distinct.map h.nodup h.values

theorem Distinct.null : Value.null.Distinct := .scalar .null

theorem Distinct.string (s : String) : (Value.string s).Distinct := .scalar (.string s)

end Value

end Inclusion
