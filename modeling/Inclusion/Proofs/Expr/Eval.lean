import Inclusion.Expr.Eval
import Inclusion.Proofs.Value.Distinct
/-!
# What evaluation gives

Two facts about values with distinct keys. The expression that is written as such a value is evaluates to it
in every scope (`evaluate_ofValue`): the fields of a map are put one after the other into an empty map, and
none of them meets its own key. And in a scope with distinct keys every expression evaluates to a value with
distinct keys (`distinct_evaluate`).
-/

namespace Inclusion

theorem Value.Distinct.atPath {v : Value} (h : v.Distinct) (path : List String) : (v.atPath path).Distinct := by
  fun_induction Value.atPath v path with
  | case1 v => exact h
  | case2 fields key path w hget ih => exact ih ((Value.distinct_map.1 h).get? hget)
  | case3 => exact .null
  | case4 => exact .null

theorem Value.Distinct.all_of_asMap {v : Value} {fields : Fields Value} (h : v.Distinct)
    (hmap : v.asMap = .ok fields) : fields.All Value.Distinct := by
  cases v with
  | map given =>
    cases hmap
    exact Value.distinct_map.1 h
  | scalar s => cases hmap
  | list items => cases hmap

/-- A computation in two steps that succeeds does so in both. -/
theorem exists_of_bind_eq_ok {ε α β : Type} {x : Except ε α} {f : α → Except ε β} {b : β}
    (h : (x >>= f) = .ok b) : ∃ a, x = .ok a ∧ f a = .ok b := by
  cases x with
  | error e => cases h
  | ok a => exact ⟨a, rfl, h⟩

namespace Expr

variable {scope : Fields Value}

theorem evaluateItems_map_ofValue {items : List Value}
    (h : ∀ v ∈ items, (ofValue v).evaluate scope = .ok v) :
    evaluateItems scope (items.map ofValue) = .ok items := by
  induction items with
  | nil => rfl
  | cons v rest ih =>
    rw [List.map_cons, evaluateItems, h v List.mem_cons_self, ih fun w hw => h w (List.mem_cons_of_mem _ hw)]
    rfl

/-- The fields come after those that are there already, in their order. -/
theorem evaluateEntries_map_ofValue {done fields : Fields Value}
    (hkeys : (Fields.keys (done ++ fields)).Nodup)
    (h : ∀ f ∈ fields, (ofValue f.2).evaluate scope = .ok f.2) :
    evaluateEntries scope done (fields.map fun f => (f.1, ofValue f.2)) = .ok (done ++ fields) := by
  induction fields generalizing done with
  | nil => rw [List.append_nil]; rfl
  | cons f rest ih =>
    have hnew : f.1 ∉ Fields.keys done := by
      intro hmem
      rw [Fields.keys_append, Fields.keys_cons] at hkeys
      exact (List.nodup_append.1 hkeys).2.2 _ hmem _ List.mem_cons_self rfl
    rw [List.map_cons, evaluateEntries, h f List.mem_cons_self]
    show evaluateEntries scope (Fields.put f.1 f.2 done) _ = _
    rw [Fields.put_of_notMem _ hnew, ih (by simpa using hkeys) fun g hg => h g (List.mem_cons_of_mem _ hg),
      List.append_assoc, List.singleton_append]

theorem evaluate_ofValue {v : Value} (h : v.Distinct) (scope : Fields Value) :
    (ofValue v).evaluate scope = .ok v := by
  induction h with
  | scalar s => rfl
  | list _ ih =>
    rw [ofValue, evaluate, ofItems_eq_map, evaluateItems_map_ofValue ih]
    rfl
  | map hkeys _ ih =>
    rw [ofValue, evaluate, ofFields_eq_map, evaluateEntries_map_ofValue (by simpa using hkeys) ih]
    rfl

mutual

theorem distinct_evaluate (hs : (Value.map scope).Distinct) :
    ∀ (e : Expr) {v : Value}, e.evaluate scope = .ok v → v.Distinct
  | literal s, v, h => by
    rw [evaluate, Except.ok.injEq] at h
    exact h ▸ .scalar s
  | name path, v, h => by
    cases path with
    | nil =>
      cases h
      exact .null
    | cons key rest =>
      cases h
      exact hs.atPath _
  | map entries, v, h => by
    rw [evaluate] at h
    obtain ⟨fields, hfields, h⟩ := exists_of_bind_eq_ok h
    cases h
    exact Value.distinct_map.2 (all_evaluateEntries hs entries .nil hfields)
  | list items, v, h => by
    rw [evaluate] at h
    obtain ⟨vs, hvs, h⟩ := exists_of_bind_eq_ok h
    cases h
    exact .list (distinct_evaluateItems hs items hvs)
  | concat left right, v, h => by
    rw [evaluate] at h
    obtain ⟨l, -, h⟩ := exists_of_bind_eq_ok h
    obtain ⟨ltext, -, h⟩ := exists_of_bind_eq_ok h
    obtain ⟨r, -, h⟩ := exists_of_bind_eq_ok h
    obtain ⟨rtext, -, h⟩ := exists_of_bind_eq_ok h
    cases h
    exact .string _
  | ambient, v, h => by
    rw [evaluate, Except.ok.injEq] at h
    exact h ▸ hs
  | merge base overlay, v, h => by
    rw [evaluate] at h
    obtain ⟨b, hb, h⟩ := exists_of_bind_eq_ok h
    obtain ⟨below, hbelow, h⟩ := exists_of_bind_eq_ok h
    obtain ⟨o, ho, h⟩ := exists_of_bind_eq_ok h
    obtain ⟨above, habove, h⟩ := exists_of_bind_eq_ok h
    cases h
    have hbase := (distinct_evaluate hs base hb).all_of_asMap hbelow
    have hover := (distinct_evaluate hs overlay ho).all_of_asMap habove
    exact Value.distinct_map.2 (hbase.overlay hover.values)

theorem distinct_evaluateItems (hs : (Value.map scope).Distinct) :
    ∀ (items : List Expr) {vs : List Value}, evaluateItems scope items = .ok vs → ∀ v ∈ vs, v.Distinct
  | [], vs, h => by
    rw [evaluateItems, Except.ok.injEq] at h
    simp [← h]
  | e :: rest, vs, h => by
    rw [evaluateItems] at h
    obtain ⟨v, hv, h⟩ := exists_of_bind_eq_ok h
    obtain ⟨ws, hws, h⟩ := exists_of_bind_eq_ok h
    cases h
    exact List.forall_mem_cons.2 ⟨distinct_evaluate hs e hv, distinct_evaluateItems hs rest hws⟩

theorem all_evaluateEntries (hs : (Value.map scope).Distinct) :
    ∀ (entries : List (String × Expr)) {done fields : Fields Value}, done.All Value.Distinct →
      evaluateEntries scope done entries = .ok fields → fields.All Value.Distinct
  | [], done, fields, hd, h => by
    rw [evaluateEntries, Except.ok.injEq] at h
    exact h ▸ hd
  | (key, e) :: rest, done, fields, hd, h => by
    rw [evaluateEntries] at h
    obtain ⟨v, hv, h⟩ := exists_of_bind_eq_ok h
    exact all_evaluateEntries hs rest (hd.put (distinct_evaluate hs e hv)) h

end

end Expr

end Inclusion
