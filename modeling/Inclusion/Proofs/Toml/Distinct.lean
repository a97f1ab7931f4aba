import Inclusion.Proofs.Value.Distinct
import Inclusion.Toml.Reader
/-!
# TOML documents have distinct keys

A table is written in several places of a document. What keeps its keys distinct is that entries are only ever
put: `descend` changes one table and puts the changed table back on the way up, so if the change keeps distinct
keys, so does the whole step (`all_descend`). The lines of a document are such steps.
-/

namespace Inclusion

namespace Toml

/-- Every table in the tree has distinct keys. -/
inductive Distinct : Toml → Prop
  | scalar (s : Scalar) : Distinct (.scalar s)
  | datetime (text : String) : Distinct (.datetime text)
  | array {items : List Toml} (h : ∀ t ∈ items, Distinct t) : Distinct (.array items)
  | table {inline : Bool} {fields : Fields Toml} (hkeys : (Fields.keys fields).Nodup)
    (h : ∀ f ∈ fields, Distinct f.2) : Distinct (.table inline fields)

theorem distinct_table {inline : Bool} {fields : Fields Toml} :
    (Toml.table inline fields).Distinct ↔ fields.All Distinct := by
  constructor
  · rintro ⟨⟩
    exact ⟨by assumption, by assumption⟩
  · intro h
    exact .table h.nodup h.values

theorem toItems_eq_map (items : List Toml) : toItems items = items.map toValue := by
  induction items with
  | nil => rfl
  | cons t rest ih => rw [toItems, ih, List.map_cons]

theorem toFields_eq_map (fields : Fields Toml) : toFields fields = fields.map fun f => (f.1, f.2.toValue) := by
  induction fields with
  | nil => rfl
  | cons f rest ih => rw [toFields, ih, List.map_cons]

theorem Distinct.toValue {t : Toml} (h : t.Distinct) : t.toValue.Distinct := by
  induction h with
  | scalar s => exact .scalar s
  | datetime text => exact Value.distinct_map.2 (.singleton (.string text))
  | array _ ih =>
    rw [Toml.toValue, toItems_eq_map]
    exact .list (by simpa using ih)
  | table hkeys _ ih =>
    rw [Toml.toValue, toFields_eq_map]
    exact Value.distinct_map.2 (Fields.All.map (P := fun t => t.toValue.Distinct) ⟨hkeys, ih⟩ fun _ h => h)

theorem Distinct.map? {t : Toml} {fields : Fields Value} (h : t.Distinct) (hmap : t.map? = some fields) :
    (Value.map fields).Distinct := by
  rw [Toml.map?] at hmap
  split at hmap
  · next hvalue =>
    cases hmap
    exact hvalue ▸ h.toValue
  · cases hmap

/-! ### Tables that are being written -/

/-- Every table that the node leads to has distinct keys. -/
inductive Node.Distinct : Node → Prop
  | value {t : Toml} (h : t.Distinct) : Node.Distinct (.value t)
  | table {implicit dotted : Bool} {entries : Fields Node} (hkeys : (Fields.keys entries).Nodup)
    (h : ∀ e ∈ entries, Node.Distinct e.2) : Node.Distinct (.table implicit dotted entries)
  | tables {elements : List (Fields Node)} (hkeys : ∀ es ∈ elements, (Fields.keys es).Nodup)
    (h : ∀ es ∈ elements, ∀ e ∈ es, Node.Distinct e.2) : Node.Distinct (.tables elements)

namespace Node

theorem distinct_table {implicit dotted : Bool} {entries : Fields Node} :
    (Node.table implicit dotted entries).Distinct ↔ entries.All Distinct := by
  constructor
  · rintro ⟨⟩
    exact ⟨by assumption, by assumption⟩
  · intro h
    exact .table h.nodup h.values

theorem distinct_tables {elements : List (Fields Node)} :
    (Node.tables elements).Distinct ↔ ∀ es ∈ elements, es.All Distinct := by
  constructor
  · rintro (_ | _ | ⟨hkeys, h⟩) es hes
    exact ⟨hkeys es hes, h es hes⟩
  · intro h
    exact .tables (fun es hes => (h es hes).nodup) fun es hes => (h es hes).values

theorem toEntries_eq_map (inline : Bool) (entries : Fields Node) :
    toEntries inline entries = entries.map fun e => (e.1, e.2.toToml inline) := by
  induction entries with
  | nil => rfl
  | cons e rest ih => rw [toEntries, ih, List.map_cons]

theorem toTables_eq_map (inline : Bool) (elements : List (Fields Node)) :
    toTables inline elements = elements.map fun es => .table inline (toEntries inline es) := by
  induction elements with
  | nil => rfl
  | cons es rest ih => rw [toTables, ih, List.map_cons]

theorem Distinct.toToml {n : Node} (h : n.Distinct) (inline : Bool) : (n.toToml inline).Distinct := by
  induction h with
  | value h => exact h
  | table hkeys _ ih =>
    rw [Node.toToml, toEntries_eq_map]
    exact Toml.distinct_table.2 (Fields.All.map (P := fun n => (n.toToml inline).Distinct) ⟨hkeys, ih⟩ fun _ h => h)
  | tables hkeys _ ih =>
    rw [Node.toToml, toTables_eq_map]
    refine .array fun t ht => ?_
    obtain ⟨es, hes, rfl⟩ := List.mem_map.1 ht
    rw [toEntries_eq_map]
    exact Toml.distinct_table.2
      (Fields.All.map (P := fun n => (n.toToml inline).Distinct) ⟨hkeys es hes, ih es hes⟩ fun _ h => h)

theorem all_toEntries {entries : Fields Node} (h : entries.All Distinct) (inline : Bool) :
    Fields.All Toml.Distinct (toEntries inline entries) := by
  rw [toEntries_eq_map]
  exact h.map fun n hn => hn.toToml inline

end Node

/-- A change of a table that keeps distinct keys, and gives something that satisfies `Q`. -/
def Keeps {β : Type} (Q : β → Prop) (change : Bool → Fields Node → Option (Fields Node × β)) : Prop :=
  ∀ isDotted entries entries' b, entries.All Node.Distinct → change isDotted entries = some (entries', b) →
    entries'.All Node.Distinct ∧ Q b

theorem Keeps.descend {β : Type} {Q : β → Prop} {change : Bool → Fields Node → Option (Fields Node × β)}
    (hchange : Keeps Q change) (dotted : Bool) (path : List String) :
    Keeps Q (descend dotted change path) := by
  induction path with
  | nil => exact hchange
  | cons key path ih =>
    intro isDotted entries entries' b h hdescend
    rw [Toml.descend] at hdescend
    split at hdescend
    · obtain ⟨⟨sub, b'⟩, hsub, heq⟩ := Option.map_eq_some_iff.1 hdescend
      cases heq
      obtain ⟨hsub', hb⟩ := ih _ _ _ _ .nil hsub
      exact ⟨h.put (Node.distinct_table.2 hsub'), hb⟩
    · cases hdescend
    · next hget =>
      split at hdescend
      · cases hdescend
      · obtain ⟨⟨sub, b'⟩, hsub, heq⟩ := Option.map_eq_some_iff.1 hdescend
        cases heq
        obtain ⟨hsub', hb⟩ := ih _ _ _ _ (Node.distinct_table.1 (h.get? hget)) hsub
        exact ⟨h.put (Node.distinct_table.2 hsub'), hb⟩
    · next elements hget =>
      split at hdescend
      · cases hdescend
      · next last hlast =>
        have helements := Node.distinct_tables.1 (h.get? hget)
        obtain ⟨⟨last', b'⟩, hlast', heq⟩ := Option.map_eq_some_iff.1 hdescend
        cases heq
        obtain ⟨hnew, hb⟩ := ih _ _ _ _ (helements last (List.mem_of_getLast? hlast)) hlast'
        refine ⟨h.put (Node.distinct_tables.2 fun es hes => ?_), hb⟩
        rcases List.mem_append.1 hes with hes | hes
        · exact helements es (List.dropLast_subset _ hes)
        · exact List.mem_singleton.1 hes ▸ hnew

theorem all_addKey {path : List String} {key : String} {t : Toml} {entries entries' : Fields Node}
    (h : entries.All Node.Distinct) (ht : t.Distinct) (hadd : addKey path key t entries = some entries') :
    entries'.All Node.Distinct := by
  obtain ⟨⟨entries'', u⟩, hdescend, rfl⟩ := Option.map_eq_some_iff.1 hadd
  refine (Keeps.descend (Q := fun _ => True) ?_ true path _ _ _ _ h hdescend).1
  intro isDotted es es' b hes hchange
  dsimp only at hchange
  split at hchange
  · cases hchange
  · split at hchange
    · cases hchange
    · cases hchange
      exact ⟨hes.put (.value ht), trivial⟩

namespace Draft

/-- The finished part and the open table have distinct keys. -/
structure Distinct (d : Draft) : Prop where
  root : d.root.All Node.Distinct
  entries : d.entries.All Node.Distinct

theorem Distinct.empty : Distinct {} :=
  ⟨.nil, .nil⟩

theorem Distinct.close {d : Draft} {root : Fields Node} (h : d.Distinct) (hclose : d.close = some root) :
    root.All Node.Distinct := by
  rw [Draft.close] at hclose
  split at hclose
  · cases hclose
    exact h.entries
  · obtain ⟨⟨root', u⟩, hdescend, rfl⟩ := Option.map_eq_some_iff.1 hclose
    refine (Keeps.descend (Q := fun _ => True) ?_ false _ _ _ _ _ h.root hdescend).1
    intro isDotted es es' b hes hchange
    dsimp only at hchange
    split at hchange
    · split at hchange
      · cases hchange
        refine ⟨hes.put (Node.distinct_tables.2 fun fields hf => ?_), trivial⟩
        exact List.mem_singleton.1 hf ▸ h.entries
      · next hget =>
        cases hchange
        refine ⟨hes.put (Node.distinct_tables.2 fun fields hf => ?_), trivial⟩
        rcases List.mem_append.1 hf with hf | hf
        · exact Node.distinct_tables.1 (hes.get? hget) fields hf
        · exact List.mem_singleton.1 hf ▸ h.entries
      · cases hchange
    · cases hchange
      exact ⟨hes.put (Node.distinct_table.2 h.entries), trivial⟩

theorem Distinct.openTable {d d' : Draft} {path : List String} (h : d.Distinct)
    (hopen : d.openTable path = some d') : d'.Distinct := by
  rw [Draft.openTable] at hopen
  split at hopen
  · next hclose =>
    obtain ⟨⟨root, entries⟩, hdescend, rfl⟩ := Option.map_eq_some_iff.1 hopen
    obtain ⟨hroot, hentries⟩ : root.All Node.Distinct ∧ Fields.All Node.Distinct entries := by
      refine Keeps.descend (Q := fun sub : Fields Node => sub.All Node.Distinct) ?_ false _ _ _ _ _
        (h.close hclose) hdescend
      intro isDotted es es' sub hes hchange
      dsimp only at hchange
      split at hchange
      · cases hchange
        exact ⟨hes, .nil⟩
      · next hget =>
        cases hchange
        exact ⟨hes.filter _, Node.distinct_table.1 (hes.get? hget)⟩
      · cases hchange
    exact ⟨hroot, hentries⟩
  · cases hopen

theorem Distinct.openElement {d d' : Draft} {path : List String} (h : d.Distinct)
    (hopen : d.openElement path = some d') : d'.Distinct := by
  rw [Draft.openElement] at hopen
  split at hopen
  · next hclose =>
    obtain ⟨⟨root, u⟩, hdescend, rfl⟩ := Option.map_eq_some_iff.1 hopen
    refine ⟨(Keeps.descend (Q := fun _ => True) ?_ false _ _ _ _ _ (h.close hclose) hdescend).1, .nil⟩
    intro isDotted es es' b hes hchange
    dsimp only at hchange
    split at hchange
    · cases hchange
      exact ⟨hes, trivial⟩
    · cases hchange
      exact ⟨hes, trivial⟩
    · cases hchange
  · cases hopen

theorem Distinct.add {d d' : Draft} {path : List String} {key : String} {t : Toml} (h : d.Distinct) (ht : t.Distinct)
    (hadd : d.add path key t = some d') : d'.Distinct := by
  obtain ⟨entries, hentries, rfl⟩ := Option.map_eq_some_iff.1 hadd
  exact ⟨h.root, all_addKey h.entries ht hentries⟩

theorem Distinct.finish {d : Draft} {t : Toml} (h : d.Distinct) (hfinish : d.finish = some t) : t.Distinct := by
  obtain ⟨entries, hentries, rfl⟩ := Option.map_eq_some_iff.1 hfinish
  exact distinct_table.2 (Node.all_toEntries (h.close hentries) false)

end Draft

/-! ### Reading -/

/-- What the three readers of values give with so much fuel has distinct keys. -/
structure ReadsDistinct (fuel : Nat) : Prop where
  value : ∀ {depth : Nat} {cs : List Char} {t : Toml} {after : List Char},
    readValue fuel depth cs = some (t, after) → t.Distinct
  items : ∀ {depth : Nat} {cs : List Char} {items : List Toml} {after : List Char},
    readItems fuel depth cs = some (items, after) → ∀ t ∈ items, t.Distinct
  entries : ∀ {depth : Nat} {done entries : Fields Node} {cs after : List Char}, done.All Node.Distinct →
    readEntries fuel depth done cs = some (entries, after) → entries.All Node.Distinct

namespace ReadsDistinct

variable {fuel : Nat}

theorem value_succ (ih : ReadsDistinct fuel) {depth : Nat} {cs after : List Char} {t : Toml}
    (h : readValue (fuel + 1) depth cs = some (t, after)) : t.Distinct := by
  rw [readValue.eq_def] at h
  dsimp only at h
  split at h
  · obtain ⟨⟨s, after'⟩, -, heq⟩ := Option.map_eq_some_iff.1 h
    cases heq
    exact .scalar _
  · obtain ⟨⟨s, after'⟩, -, heq⟩ := Option.map_eq_some_iff.1 h
    cases heq
    exact .scalar _
  · cases h
    exact .scalar _
  · cases h
    exact .scalar _
  · split at h
    · cases h
    · obtain ⟨⟨items, after'⟩, hitems, heq⟩ := Option.map_eq_some_iff.1 h
      cases heq
      exact .array (ih.items hitems)
  · split at h
    · cases h
    · split at h
      · cases h
        exact distinct_table.2 .nil
      · obtain ⟨⟨entries, after'⟩, hentries, heq⟩ := Option.map_eq_some_iff.1 h
        cases heq
        exact distinct_table.2 (Node.all_toEntries (ih.entries .nil hentries) true)
  · split at h
    · cases h
    · cases h
      exact .datetime _
    · obtain ⟨⟨s, after'⟩, -, heq⟩ := Option.map_eq_some_iff.1 h
      cases heq
      exact .scalar _

theorem items_succ (ih : ReadsDistinct fuel) {depth : Nat} {cs after : List Char} {items : List Toml}
    (h : readItems (fuel + 1) depth cs = some (items, after)) : ∀ t ∈ items, t.Distinct := by
  rw [readItems.eq_def] at h
  dsimp only at h
  split at h
  · cases h
  · cases h
    simp
  · split at h
    · cases h
    · next hvalue =>
      split at h
      · cases h
        exact List.forall_mem_singleton.2 (ih.value hvalue)
      · obtain ⟨⟨items, after'⟩, hitems, heq⟩ := Option.map_eq_some_iff.1 h
        cases heq
        exact List.forall_mem_cons.2 ⟨ih.value hvalue, ih.items hitems⟩
      · cases h

theorem entries_succ (ih : ReadsDistinct fuel) {depth : Nat} {done entries : Fields Node} {cs after : List Char}
    (hd : done.All Node.Distinct) (h : readEntries (fuel + 1) depth done cs = some (entries, after)) :
    entries.All Node.Distinct := by
  rw [readEntries.eq_def] at h
  dsimp only at h
  split at h
  · split at h
    · next hvalue _ =>
      split at h
      · next hadd _ =>
        cases h
        exact all_addKey hd (ih.value hvalue) hadd
      · next hadd _ => exact ih.entries (all_addKey hd (ih.value hvalue) hadd) h
      · cases h
    · cases h
  · cases h

end ReadsDistinct

theorem readsDistinct (fuel : Nat) : ReadsDistinct fuel := by
  induction fuel with
  | zero =>
    refine ⟨fun h => ?_, fun h => ?_, fun _ h => ?_⟩
    · cases h
    · cases h
    · cases h
  | succ fuel ih => exact ⟨ih.value_succ, ih.items_succ, ih.entries_succ⟩

theorem distinct_readLine {d d' : Draft} {cs after : List Char} (h : d.Distinct)
    (hread : readLine d cs = some (d', after)) : d'.Distinct := by
  rw [readLine.eq_def] at hread
  split at hread
  · cases hread
    exact h
  · split at hread
    · split at hread
      · next hopen _ =>
        cases hread
        exact h.openElement hopen
      · cases hread
    · cases hread
  · split at hread
    · split at hread
      · next hopen _ =>
        cases hread
        exact h.openTable hopen
      · cases hread
    · cases hread
  · split at hread
    · cases hread
      exact h
    · split at hread
      · dsimp only at hread
        split at hread
        · next hvalue _ =>
          split at hread
          · next hadd _ =>
            cases hread
            exact h.add ((readsDistinct _).value hvalue) hadd
          · cases hread
        · cases hread
      · cases hread

theorem distinct_readDocument {fuel : Nat} {d d' : Draft} {cs : List Char} (h : d.Distinct)
    (hread : readDocument fuel d cs = some d') : d'.Distinct := by
  fun_induction readDocument fuel d cs with
  | case1 =>
    cases hread
    exact h
  | case2 => cases hread
  | case3 fuel d cs _ d' rest hline ih => exact ih (distinct_readLine h hline) hread
  | case4 => cases hread

theorem distinct_parse {text : String} {t : Toml} (h : Toml.parse text = some t) : t.Distinct := by
  obtain ⟨d, hd, hfinish⟩ := Option.bind_eq_some_iff.1 h
  exact (distinct_readDocument .empty hd).finish hfinish

end Toml

end Inclusion
