import Inclusion.Catalog
import Inclusion.Proofs.Value.Distinct
/-!
# What an index is made of

An index comes about by putting components into it, one after another. Putting keeps the names distinct, so every
index that is built has distinct names (`all_of_build`). Of the components with one name the last one put counts
(`get?_putAll`). A search that rejects duplicates puts the same components as one that does not, up to the first
component whose name is there already.
-/

namespace Inclusion

namespace Index

/-- What every step of a computation keeps, the whole computation keeps. -/
theorem of_foldlM_eq_ok {α β ε : Type} {P : β → Prop} {f : β → α → Except ε β}
    {as : List α} (hstep : ∀ b, ∀ a ∈ as, ∀ b', P b → f b a = .ok b' → P b') {b b' : β} (hb : P b)
    (h : as.foldlM f b = .ok b') : P b' := by
  induction as generalizing b with
  | nil =>
    cases h
    exact hb
  | cons a as ih =>
    rw [List.foldlM_cons] at h
    cases ha : f b a with
    | error e =>
      rw [ha] at h
      cases h
    | ok next =>
      rw [ha] at h
      refine ih (fun b a ha => hstep b a (List.mem_cons_of_mem _ ha)) ?_ h
      exact hstep b a List.mem_cons_self next hb ha

theorem eq_put_of_add {policy : DuplicatePolicy} {index index' : Index} {c : Component}
    (h : add policy index c = .ok index') : index' = Fields.put c.name c index := by
  unfold add at h
  split at h
  · cases h
  · exact (Except.ok.inj h).symm

/-- What holds of the components of the files under a root holds of all that is added. -/
theorem all_of_addRoot {P : Component → Prop} {s : Settings} {disk : Disk} {root : Path} {index index' : Index}
    (hfile : ∀ path c, Component.ofFile s root path = some c → P c) (hindex : Fields.All P index)
    (h : addRoot s disk index root = .ok index') : Fields.All P index' := by
  rw [addRoot] at h
  split at h
  · next components hcomponents =>
    refine of_foldlM_eq_ok (P := Fields.All P) ?_ hindex h
    intro before c hc after hbefore hadd
    rw [componentsUnder] at hcomponents
    split at hcomponents
    · cases hcomponents
      obtain ⟨path, -, hpath⟩ := List.mem_filterMap.mp hc
      rw [eq_put_of_add hadd]
      exact hbefore.put (hfile path c hpath)
    · cases hcomponents
  · cases h

/-- The names in an index are distinct, and what holds of the components of all files holds of those in it. -/
theorem all_of_build {P : Component → Prop} {s : Settings} {disk : Disk} {roots : List Path} {index : Index}
    (hfile : ∀ root path c, Component.ofFile s root path = some c → P c) (h : build s disk roots = .ok index) :
    Fields.All P index := by
  rw [build] at h
  split at h
  · cases h
  · refine of_foldlM_eq_ok (P := Fields.All P) ?_ .nil h
    intro before root _ after hbefore hroot
    exact all_of_addRoot (hfile root) hbefore hroot

/-! ### Putting components one after another -/

def putAll (index : Index) (components : List Component) : Index :=
  components.foldl (fun index c => Fields.put c.name c index) index

/-- The last component with each name is found, or else what was there before. -/
theorem get?_putAll (name : String) (index : Index) (components : List Component) :
    Fields.get? name (putAll index components) =
      (components.filter fun c => c.name = name).getLast?.or (Fields.get? name index) := by
  induction components generalizing index with
  | nil => rfl
  | cons c rest ih =>
    rw [putAll, List.foldl_cons]
    refine (ih _).trans ?_
    rw [Fields.get?_put]
    by_cases hname : c.name = name
    · rw [if_pos hname.symm, List.filter_cons_of_pos (by simpa using hname), List.getLast?_cons]
      cases (rest.filter fun c => c.name = name).getLast? <;> rfl
    · rw [if_neg (Ne.symm hname), List.filter_cons_of_neg (by simpa using hname)]

theorem nodup_keys_putAll {index : Index} (h : (Fields.keys index).Nodup) (components : List Component) :
    (Fields.keys (putAll index components)).Nodup := by
  induction components generalizing index with
  | nil => exact h
  | cons c rest ih => exact ih (Fields.nodup_keys_put c.name c h)

theorem foldlM_add_lastWins (index : Index) (components : List Component) :
    components.foldlM (add .lastWins) index = .ok (putAll index components) := by
  induction components generalizing index with
  | nil => rfl
  | cons c rest ih =>
    rw [List.foldlM_cons]
    exact ih _

theorem add_reject_of_notMem {index : Index} {c : Component} (h : c.name ∉ Fields.keys index) :
    add .reject index c = .ok (Fields.put c.name c index) := by
  unfold add
  rw [Fields.get?_eq_none_iff.mpr h]

theorem add_reject_of_get? {index : Index} {c old : Component} (h : Fields.get? c.name index = some old) :
    add .reject index c = .error (.duplicate c.name old.templateId c.templateId) := by
  unfold add
  rw [h]

/-- Components with names that are new and distinct. -/
theorem foldlM_add_reject {index : Index} {components : List Component}
    (hdistinct : (components.map Component.name).Nodup) (hnew : ∀ c ∈ components, c.name ∉ Fields.keys index) :
    components.foldlM (add .reject) index = .ok (putAll index components) := by
  induction components generalizing index with
  | nil => rfl
  | cons c rest ih =>
    obtain ⟨hc, hrest⟩ := List.forall_mem_cons.mp hnew
    rw [List.map_cons, List.nodup_cons] at hdistinct
    rw [List.foldlM_cons, add_reject_of_notMem hc]
    refine ih hdistinct.2 fun d hd => ?_
    rw [Fields.keys_put, if_neg hc, List.mem_append, List.mem_singleton, not_or]
    refine ⟨hrest d hd, fun heq => hdistinct.1 ?_⟩
    exact heq ▸ List.mem_map_of_mem hd

/-- The first component with a name that is there already. -/
theorem foldlM_add_reject_duplicate {before between after : List Component} {c old : Component}
    (hdistinct : ((before ++ old :: between).map Component.name).Nodup) (hname : old.name = c.name) :
    (before ++ old :: between ++ c :: after).foldlM (add .reject) [] =
      .error (.duplicate c.name old.templateId c.templateId) := by
  have hput : (before ++ old :: between).foldlM (add .reject) [] = .ok (putAll [] (before ++ old :: between)) :=
    foldlM_add_reject hdistinct fun d _ => List.not_mem_nil
  have hget : Fields.get? c.name (putAll [] (before ++ old :: between)) = some old := by
    have hbetween : between.filter (fun d => d.name = c.name) = [] := by
      rw [List.map_append, List.map_cons, List.nodup_append, List.nodup_cons] at hdistinct
      refine List.filter_eq_nil_iff.mpr fun d hd heq => hdistinct.2.1.1 ?_
      rw [hname, ← of_decide_eq_true heq]
      exact List.mem_map_of_mem hd
    rw [get?_putAll, List.filter_append, List.filter_cons_of_pos (by simpa using hname), hbetween, List.getLast?_concat]
    rfl
  rw [List.foldlM_append, hput]
  show (c :: after).foldlM (add .reject) (putAll [] (before ++ old :: between)) = _
  rw [List.foldlM_cons, add_reject_of_get? hget]
  rfl

end Index

end Inclusion
