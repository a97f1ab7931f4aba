import Inclusion.Proofs.Catalog.Index
import Inclusion.Proofs.Disk.Tree
import Mathlib.Data.List.Induction
/-!
# A catalog over time

A catalog is asked again and again, while the files change between the questions. `ask` is one question, and `run`
is a list of them, each with the disk as it is at that moment. As long as every search fails the catalog stays as it
was, so each question searches the disk of its own moment. The first search that succeeds leaves its index behind,
and from then on the disk is not looked at any more (`run_unbuilt`).
-/

namespace Inclusion

namespace Catalog

inductive Question
  | component (name : String)
  | contains (name : String)
  | names
  deriving DecidableEq, Repr

inductive Answer
  | component (answer : Except CatalogError Component)
  | contains (answer : Except CatalogError Bool)
  | names (answer : Except CatalogError (List String))

/-- The answer to a question when there is an index, or when the search for one failed. -/
def Question.answer (found : Except CatalogError Index) : Question → Answer
  | component name => .component (found.bind fun index => (Fields.get? name index).elim (.error (.unknown name)) .ok)
  | contains name => .contains (found.map fun index => (Fields.get? name index).isSome)
  | names => .names (found.map fun index => (Fields.keys index).mergeSort (· ≤ ·))

/-- The answer to a question, and the catalog after it. -/
def ask (disk : Disk) (c : Catalog) : Question → Answer × Catalog
  | .component name => (.component (c.resolve disk name).1, (c.resolve disk name).2)
  | .contains name => (.contains (c.contains disk name).1, (c.contains disk name).2)
  | .names => (.names (c.names disk).1, (c.names disk).2)

/-- A question, and the disk at the moment when it is asked. -/
structure Call where
  disk : Disk
  question : Question

/-- The catalog after questions were asked, one after another. -/
def run (c : Catalog) (calls : List Call) : Catalog :=
  calls.foldl (fun c call => (c.ask call.disk call.question).2) c

/-- A catalog that has not been asked yet. -/
def unbuilt (paths : SearchPaths) (s : Settings) : Catalog where
  settings := s
  paths := paths

/-- What a search finds on a disk. -/
def search (c : Catalog) (disk : Disk) : Except CatalogError Index :=
  Index.build c.settings disk (c.paths.roots c.settings.ns)

/-- The catalog has no index when it is asked, and the search that it makes succeeds. -/
def CompletesSearch (c : Catalog) (disk : Disk) (index : Index) : Prop :=
  c.isBuilt = false ∧ c.search disk = .ok index

variable {paths : SearchPaths} {s : Settings} {c : Catalog} {index : Index}

theorem resolve_eq (disk : Disk) (name : String) (c : Catalog) :
    c.resolve disk name = ((c.getIndex disk).1.bind fun index =>
      (Fields.get? name index).elim (.error (.unknown name)) .ok, (c.getIndex disk).2) := by
  rw [resolve]
  split
  · next index c' heq =>
    rw [heq]
    cases hname : Fields.get? name index <;> simp [Except.bind, hname]
  · next heq =>
    rw [heq]
    rfl

theorem contains_eq (disk : Disk) (name : String) (c : Catalog) :
    c.contains disk name =
      ((c.getIndex disk).1.map fun index => (Fields.get? name index).isSome, (c.getIndex disk).2) := by
  rw [contains]
  split
  · next heq =>
    rw [heq]
    rfl
  · next heq =>
    rw [heq]
    rfl

theorem names_eq (disk : Disk) (c : Catalog) :
    c.names disk =
      ((c.getIndex disk).1.map fun index => (Fields.keys index).mergeSort (· ≤ ·), (c.getIndex disk).2) := by
  rw [names]
  split
  · next heq =>
    rw [heq]
    rfl
  · next heq =>
    rw [heq]
    rfl

theorem ask_eq (disk : Disk) (c : Catalog) (q : Question) :
    c.ask disk q = (q.answer (c.getIndex disk).1, (c.getIndex disk).2) := by
  cases q with
  | component name => rw [ask, resolve_eq, Question.answer]
  | contains name => rw [ask, contains_eq, Question.answer]
  | names => rw [ask, names_eq, Question.answer]

/-! ### One question -/

theorem getIndex_of_index (h : c.index = some index) (disk : Disk) : c.getIndex disk = (.ok index, c) := by
  rw [getIndex, h]

theorem getIndex_of_search_ok {disk : Disk} (h : c.index = none) (hsearch : c.search disk = .ok index) :
    c.getIndex disk = (.ok index, { c with index := some index, builds := c.builds + 1 }) := by
  rw [search] at hsearch
  rw [getIndex, h]
  dsimp only
  rw [hsearch]

theorem getIndex_of_search_error {disk : Disk} {e : CatalogError} (h : c.index = none)
    (hsearch : c.search disk = .error e) : c.getIndex disk = (.error e, c) := by
  rw [search] at hsearch
  rw [getIndex, h]
  dsimp only
  rw [hsearch]

/-- Looking for the index again gives the same. -/
theorem getIndex_getIndex (disk : Disk) (c : Catalog) :
    ((c.getIndex disk).2.getIndex disk).1 = (c.getIndex disk).1 := by
  cases hindex : c.index with
  | some index => rw [getIndex_of_index hindex, getIndex_of_index hindex]
  | none =>
    cases hsearch : c.search disk with
    | error e => rw [getIndex_of_search_error hindex hsearch, getIndex_of_search_error hindex hsearch]
    | ok index => rw [getIndex_of_search_ok hindex hsearch, getIndex_of_index rfl]

theorem ask_of_index (h : c.index = some index) (disk : Disk) (q : Question) :
    c.ask disk q = (q.answer (.ok index), c) := by
  rw [ask_eq, getIndex_of_index h]

theorem ask_of_search_ok {disk : Disk} (h : c.index = none) (hsearch : c.search disk = .ok index) (q : Question) :
    c.ask disk q = (q.answer (.ok index), { c with index := some index, builds := c.builds + 1 }) := by
  rw [ask_eq, getIndex_of_search_ok h hsearch]

theorem ask_of_search_error {disk : Disk} {e : CatalogError} (h : c.index = none) (hsearch : c.search disk = .error e)
    (q : Question) : c.ask disk q = (q.answer (.error e), c) := by
  rw [ask_eq, getIndex_of_search_error h hsearch]

/-! ### Many questions -/

theorem run_snoc (c : Catalog) (calls : List Call) (call : Call) :
    c.run (calls ++ [call]) = ((c.run calls).ask call.disk call.question).2 := by
  rw [run, run, List.foldl_append, List.foldl_cons, List.foldl_nil]

/-- The index of the first search that succeeds. -/
def firstIndex (c : Catalog) (calls : List Call) : Option Index :=
  calls.findSome? fun call => (c.search call.disk).toOption

theorem firstIndex_snoc (c : Catalog) (calls : List Call) (call : Call) :
    c.firstIndex (calls ++ [call]) = (c.firstIndex calls).or (c.search call.disk).toOption := by
  rw [firstIndex, List.findSome?_append, List.findSome?_singleton]
  rfl

/-- A catalog that has searched once and found the index, or has found none so far. -/
def holding (paths : SearchPaths) (s : Settings) (index : Option Index) : Catalog :=
  ⟨s, paths, index, if index.isSome then 1 else 0⟩

/-- After any questions, the catalog holds the index of the first search that succeeded. -/
theorem run_unbuilt (paths : SearchPaths) (s : Settings) (calls : List Call) :
    (unbuilt paths s).run calls = holding paths s ((unbuilt paths s).firstIndex calls) := by
  induction calls using List.reverseRecOn with
  | nil => rfl
  | append_singleton calls call ih =>
    rw [run_snoc, firstIndex_snoc, ih]
    cases (unbuilt paths s).firstIndex calls with
    | some index => rw [ask_of_index rfl, Option.some_or]
    | none =>
      rw [Option.none_or]
      show ((unbuilt paths s).ask call.disk call.question).2 = _
      cases hsearch : (unbuilt paths s).search call.disk with
      | ok index =>
        rw [ask_of_search_ok rfl hsearch]
        rfl
      | error e =>
        rw [ask_of_search_error rfl hsearch]
        rfl

/-- What holds of the index of every search holds of the index that a catalog gives after any questions. -/
theorem of_getIndex_run {P : Index → Prop} (hsearch : ∀ disk index, (unbuilt paths s).search disk = .ok index → P index)
    (calls : List Call) {disk : Disk} (h : (((unbuilt paths s).run calls).getIndex disk).1 = .ok index) : P index := by
  rw [run_unbuilt, getIndex, holding] at h
  dsimp only at h
  split at h
  · next found hfirst =>
    cases h
    obtain ⟨-, call, -, -, hfound, -⟩ := List.findSome?_eq_some_iff.mp hfirst
    cases hdisk : (unbuilt paths s).search call.disk with
    | ok index =>
      rw [hdisk] at hfound
      cases hfound
      exact hsearch call.disk index hdisk
    | error e =>
      rw [hdisk] at hfound
      cases hfound
  · split at h
    · next hdisk =>
      cases h
      exact hsearch disk index hdisk
    · cases h

/-! ### The names -/

theorem mem_names_iff {disk : Disk} {name : String} :
    (∃ names, (c.names disk).1 = .ok names ∧ name ∈ names) ↔
      ∃ index, (c.getIndex disk).1 = .ok index ∧ name ∈ Fields.keys index := by
  rw [names_eq]
  cases (c.getIndex disk).1 with
  | error e => simp [Except.map]
  | ok index => simp [Except.map]

theorem contains_iff {disk : Disk} {name : String} :
    (c.contains disk name).1 = .ok true ↔ ∃ index, (c.getIndex disk).1 = .ok index ∧ name ∈ Fields.keys index := by
  rw [contains_eq]
  cases (c.getIndex disk).1 with
  | error e => simp [Except.map]
  | ok index => simp [Except.map, Option.isSome_iff_ne_none, Fields.get?_eq_none_iff]

theorem exists_resolve_iff {disk : Disk} {name : String} :
    (∃ found, (c.resolve disk name).1 = .ok found) ↔
      ∃ index, (c.getIndex disk).1 = .ok index ∧ name ∈ Fields.keys index := by
  rw [resolve_eq]
  cases (c.getIndex disk).1 with
  | error e => simp [Except.bind]
  | ok index =>
    have hmem : Fields.get? name index = none ↔ name ∉ Fields.keys index := Fields.get?_eq_none_iff
    cases hname : Fields.get? name index with
    | none => simp [Except.bind, hname, hmem.mp hname]
    | some found =>
      have : name ∈ Fields.keys index := by
        by_contra hnot
        rw [hmem.mpr hnot] at hname
        cases hname
      simp [Except.bind, hname, this]

/-! ### What a catalog does over time -/

theorem isBuilt_run (calls : List Call) :
    ((unbuilt paths s).run calls).isBuilt = ((unbuilt paths s).firstIndex calls).isSome := by
  rw [run_unbuilt]
  rfl

theorem completesSearch_run_iff {before : List Call} {disk : Disk} :
    ((unbuilt paths s).run before).CompletesSearch disk index ↔
      (unbuilt paths s).firstIndex before = none ∧ (unbuilt paths s).search disk = .ok index := by
  rw [CompletesSearch, isBuilt_run, run_unbuilt, Option.isSome_eq_false_iff, Option.isNone_iff_eq_none]
  rfl

theorem firstIndex_eq_some_iff {calls : List Call} :
    (unbuilt paths s).firstIndex calls = some index ↔ ∃ before call after, calls = before ++ call :: after ∧
      ((unbuilt paths s).run before).CompletesSearch call.disk index := by
  rw [firstIndex, List.findSome?_eq_some_iff]
  refine exists₃_congr fun before call after => and_congr_right fun _ => ?_
  rw [completesSearch_run_iff, firstIndex, List.findSome?_eq_none_iff, and_comm]
  refine and_congr_right fun _ => ?_
  cases (unbuilt paths s).search call.disk <;> simp [Except.toOption]

/-- A catalog searches until a search succeeds, and then no more. It is built exactly when a question has completed a
search, and has then counted one. Without an index a question searches the disk of its moment, and a search that fails
changes nothing. With one every answer is that of the index, on every disk. A component can be looked up exactly when
the catalog contains its name and lists it, and the names are listed in order, each once. -/
theorem searches_once (paths : SearchPaths) (s : Settings) (calls : List Call) :
    let c := (unbuilt paths s).run calls
    (∀ disk, c.search disk = Index.build s disk (paths.roots s.ns)) ∧
      (c.isBuilt = true ↔ ∃ before call after index, calls = before ++ call :: after ∧
        ((unbuilt paths s).run before).CompletesSearch call.disk index) ∧
      c.builds = (if c.isBuilt then 1 else 0) ∧
      (c.isBuilt = false → ∀ disk q,
        match c.search disk with
        | .ok index => c.ask disk q = (q.answer (.ok index), { c with index := some index, builds := 1 })
        | .error e => c.ask disk q = (q.answer (.error e), c)) ∧
      (∀ before call after index, calls = before ++ call :: after →
        ((unbuilt paths s).run before).CompletesSearch call.disk index →
        ∀ disk q, c.ask disk q = (q.answer (.ok index), c)) ∧
      ∀ disk name,
        ((∃ found, (c.resolve disk name).1 = .ok found) ↔ (c.contains disk name).1 = .ok true) ∧
        ((c.contains disk name).1 = .ok true ↔ ∃ names, (c.names disk).1 = .ok names ∧ name ∈ names) ∧
        ∀ names, (c.names disk).1 = .ok names → names.Pairwise (· < ·) := by
  intro c
  have hc : c = holding paths s ((unbuilt paths s).firstIndex calls) := run_unbuilt paths s calls
  refine ⟨?_, ?_, ?_, ?_, ?_, ?_⟩
  · intro disk
    rw [hc]
    rfl
  · have hbuilt : c.isBuilt = true ↔ ∃ index, (unbuilt paths s).firstIndex calls = some index := by
      rw [isBuilt_run, Option.isSome_iff_exists]
    rw [hbuilt]
    simp only [firstIndex_eq_some_iff]
    constructor
    · rintro ⟨index, before, call, after, h⟩
      exact ⟨before, call, after, index, h⟩
    · rintro ⟨before, call, after, index, h⟩
      exact ⟨index, before, call, after, h⟩
  · rw [hc]
    rfl
  · intro hbuilt disk q
    rw [isBuilt_run, Option.isSome_eq_false_iff, Option.isNone_iff_eq_none] at hbuilt
    rw [hc, hbuilt]
    split
    · next index hsearch => exact ask_of_search_ok rfl hsearch q
    · next e hsearch => exact ask_of_search_error rfl hsearch q
  · intro before call after index hcalls hcompletes disk q
    have hfirst := firstIndex_eq_some_iff.mpr ⟨before, call, after, hcalls, hcompletes⟩
    rw [hc, hfirst]
    exact ask_of_index rfl disk q
  · intro disk name
    refine ⟨exists_resolve_iff.trans contains_iff.symm, contains_iff.trans mem_names_iff.symm, ?_⟩
    intro names hnames
    rw [names_eq] at hnames
    cases hindex : (c.getIndex disk).1 with
    | error e =>
      rw [hindex] at hnames
      cases hnames
    | ok index =>
      rw [hindex] at hnames
      cases hnames
      have hall : Fields.All (fun _ => True) _ :=
        of_getIndex_run (fun _ _ hsearch => Index.all_of_build (fun _ _ _ _ => trivial) hsearch) calls hindex
      exact pairwise_mergeSort (f := fun name => name) (by rw [List.map_id']; exact hall.nodup)

end Catalog

end Inclusion
