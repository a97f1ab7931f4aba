import Inclusion.Disk
import Inclusion.Proofs.Text.Bytes
import Inclusion.Proofs.Value.Distinct
/-!
# The files of a tree in order

A file in a tree is named by its steps, the names on the way to it. Walking a tree whose directories name each entry
once, and going through the entries of a directory in the order of their names, meets the visible files in the
lexicographic order of their steps (`pairwise_visible`), and meets all of them (`mem_visible_iff`).
-/

namespace Inclusion

open OsString (slash dot)

/-- A name that an entry of a directory can have. -/
structure IsFileName (name : OsString) : Prop where
  ne_nil : name ≠ []
  no_slash : slash ∉ name
  ne_here : name ≠ [dot]
  ne_up : name ≠ [dot, dot]

instance (name : OsString) : Decidable (IsFileName name) :=
  decidable_of_iff (name ≠ [] ∧ slash ∉ name ∧ name ≠ [dot] ∧ name ≠ [dot, dot])
    ⟨fun ⟨hne, hslash, hhere, hup⟩ => ⟨hne, hslash, hhere, hup⟩, fun h => ⟨h.ne_nil, h.no_slash, h.ne_here, h.ne_up⟩⟩

/-- A name with a dot in front. -/
def IsHidden (name : OsString) : Prop :=
  name.head? = some dot

instance (name : OsString) : Decidable (IsHidden name) :=
  inferInstanceAs (Decidable (_ = _))

/-! ### The order of names -/

/-- Sorting by distinct names leaves each name before all others. -/
theorem pairwise_mergeSort {α β : Type} [LE β] [LT β] [DecidableLE β] [Std.IsLinearOrder β] [Std.LawfulOrderLT β]
    {f : α → β} {as : List α} (h : (as.map f).Nodup) :
    (as.mergeSort fun a b => f a ≤ f b).Pairwise fun a b => f a < f b := by
  have hle : (as.mergeSort fun a b => f a ≤ f b).Pairwise fun a b => decide (f a ≤ f b) = true := by
    refine List.pairwise_mergeSort (fun a b c hab hbc => ?_) (fun a b => ?_) as
    · exact decide_eq_true (Std.le_trans (of_decide_eq_true hab) (of_decide_eq_true hbc))
    · simpa using Std.le_total (a := f a) (b := f b)
  have hne : (as.mergeSort fun a b => f a ≤ f b).Pairwise fun a b => f a ≠ f b := by
    rw [← List.pairwise_map (R := (· ≠ ·))]
    exact ((List.mergeSort_perm as _).map f).nodup_iff.mpr h
  exact hle.imp₂ (fun a b hab hne => Std.lt_of_le_of_ne (of_decide_eq_true hab) hne) hne

namespace FileTree

/-- Every directory in the tree has entries with file names, each name once. -/
inductive WellFormed : FileTree → Prop
  | text (content : String) : WellFormed (.text content)
  | bytes : WellFormed .bytes
  | directory {entries : Fields FileTree OsString} (hkeys : (Fields.keys entries).Nodup) (hnames : ∀ e ∈ entries, IsFileName e.1)
    (h : ∀ e ∈ entries, WellFormed e.2) : WellFormed (.directory entries)

/-- The tree at the end of the steps. -/
def at? : (steps : List OsString) → FileTree → Option FileTree
  | [], t => some t
  | name :: steps, .directory entries => (Fields.get? name entries).bind (at? steps)
  | _ :: _, _ => none

def IsFile : FileTree → Prop
  | .directory _ => False
  | _ => True

/-- The steps lead to a file. -/
def HasFile (t : FileTree) (steps : List OsString) : Prop :=
  ∃ file ∈ t.at? steps, file.IsFile

/-! ### The steps of the visible files -/

mutual

/-- The steps of the files that are not hidden, in the order in which they are met. -/
def visible : FileTree → List (List OsString)
  | .text _ | .bytes => [[]]
  | .directory entries => ((visibleIn entries).mergeSort fun a b => a.1 ≤ b.1).flatMap Prod.snd
termination_by structural t => t

/-- The steps of the files in each entry that is not hidden, with the name of the entry. -/
def visibleIn : List (OsString × FileTree) → List (OsString × List (List OsString))
  | [] => []
  | (name, t) :: rest =>
    if name.head? = some dot then visibleIn rest else (name, t.visible.map (name :: ·)) :: visibleIn rest
termination_by structural entries => entries

end

/-- The path at the end of the steps from a path. -/
def pathOf (path : Path) (steps : List OsString) : Path :=
  steps.foldl (fun p name => p.join ⟨name⟩) path

mutual

theorem files_eq_map : ∀ (t : FileTree) (path : Path), t.files path = t.visible.map (pathOf path)
  | .text _, _ => rfl
  | .bytes, _ => rfl
  | .directory entries, path => by
    have hsort : ((visibleIn entries).map fun e => (e.1, e.2.map (pathOf path))).mergeSort (fun a b => a.1 ≤ b.1) =
        ((visibleIn entries).mergeSort fun a b => a.1 ≤ b.1).map fun e => (e.1, e.2.map (pathOf path)) := by
      symm
      apply List.map_mergeSort
      intro a _ b _
      rfl
    rw [files, visible, filesOfEntries_eq_map entries path, hsort, List.map_flatMap, List.flatMap_map]

theorem filesOfEntries_eq_map : ∀ (entries : List (OsString × FileTree)) (path : Path),
    filesOfEntries path entries = (visibleIn entries).map fun e => (e.1, e.2.map (pathOf path))
  | [], _ => rfl
  | (name, t) :: rest, path => by
    rw [filesOfEntries, visibleIn, filesOfEntries_eq_map rest path]
    simp only [OsString.head?_chars_eq_dot_iff]
    split
    · rfl
    · rw [files_eq_map t, List.map_cons, List.map_map]
      rfl

end

theorem mem_visibleIn_iff {entries : List (OsString × FileTree)} {e : OsString × List (List OsString)} :
    e ∈ visibleIn entries ↔ ∃ t, (e.1, t) ∈ entries ∧ ¬ IsHidden e.1 ∧ e.2 = t.visible.map (e.1 :: ·) := by
  induction entries with
  | nil => simp [visibleIn]
  | cons entry rest ih =>
    obtain ⟨name, t⟩ := entry
    rw [visibleIn]
    split
    · next hhidden =>
      rw [ih]
      refine exists_congr fun u => ⟨fun h => ⟨List.mem_cons_of_mem _ h.1, h.2⟩, fun h => ⟨?_, h.2⟩⟩
      cases List.mem_cons.mp h.1 with
      | inl heq =>
        cases heq
        exact absurd hhidden h.2.1
      | inr hmem => exact hmem
    · next hvisible =>
      rw [List.mem_cons, ih]
      constructor
      · rintro (rfl | ⟨u, hu, hrest⟩)
        · exact ⟨t, List.mem_cons_self, hvisible, rfl⟩
        · exact ⟨u, List.mem_cons_of_mem _ hu, hrest⟩
      · rintro ⟨u, hu, hshown, hsteps⟩
        cases List.mem_cons.mp hu with
        | inl heq =>
          left
          cases heq
          exact Prod.ext rfl hsteps
        | inr hmem => exact .inr ⟨u, hmem, hshown, hsteps⟩

theorem mem_visible_directory {entries : List (OsString × FileTree)} {steps : List OsString} :
    steps ∈ visible (.directory entries) ↔
      ∃ name rest t, steps = name :: rest ∧ (name, t) ∈ entries ∧ ¬ IsHidden name ∧ rest ∈ t.visible := by
  simp only [visible, List.mem_flatMap, List.mem_mergeSort, mem_visibleIn_iff]
  constructor
  · rintro ⟨e, ⟨t, ht, hshown, hsteps⟩, hmem⟩
    rw [hsteps] at hmem
    obtain ⟨rest, hrest, rfl⟩ := List.mem_map.mp hmem
    exact ⟨e.1, rest, t, rfl, ht, hshown, hrest⟩
  · rintro ⟨name, rest, t, rfl, ht, hshown, hrest⟩
    exact ⟨(name, t.visible.map (name :: ·)), ⟨t, ht, hshown, rfl⟩, List.mem_map.mpr ⟨rest, hrest, rfl⟩⟩

/-- The files that are met are those whose steps are not hidden. -/
theorem mem_visible_iff {t : FileTree} (h : t.WellFormed) {steps : List OsString} :
    steps ∈ t.visible ↔ t.HasFile steps ∧ ∀ name ∈ steps, ¬ IsHidden name := by
  induction h generalizing steps with
  | text content => cases steps <;> simp [visible, HasFile, at?, IsFile]
  | bytes => cases steps <;> simp [visible, HasFile, at?, IsFile]
  | @directory entries hkeys hnames h ih =>
    rw [mem_visible_directory]
    constructor
    · rintro ⟨name, rest, t, rfl, ht, hshown, hrest⟩
      obtain ⟨⟨file, hfile, hisfile⟩, hrest⟩ := (ih (name, t) ht).mp hrest
      refine ⟨⟨file, ?_, hisfile⟩, List.forall_mem_cons.mpr ⟨hshown, hrest⟩⟩
      rw [at?, (Fields.get?_eq_some_iff hkeys).mpr ht]
      exact hfile
    · rintro ⟨⟨file, hfile, hisfile⟩, hshown⟩
      cases steps with
      | nil =>
        cases hfile
        exact absurd hisfile id
      | cons name rest =>
        rw [at?] at hfile
        obtain ⟨t, ht, hat⟩ := Option.bind_eq_some_iff.mp hfile
        have hmem := Fields.mem_of_get? ht
        obtain ⟨hname, hrest⟩ := List.forall_mem_cons.mp hshown
        exact ⟨name, rest, t, rfl, hmem, hname, (ih (name, t) hmem).mpr ⟨⟨file, hat, hisfile⟩, hrest⟩⟩

/-! ### The order -/

theorem keys_visibleIn_sublist (entries : List (OsString × FileTree)) :
    ((visibleIn entries).map Prod.fst).Sublist (Fields.keys entries) := by
  induction entries with
  | nil => exact .slnil
  | cons entry rest ih =>
    obtain ⟨name, t⟩ := entry
    rw [visibleIn]
    split
    · exact ih.cons name
    · exact ih.cons_cons name

/-- The files are met in the order of their steps. -/
theorem pairwise_visible {t : FileTree} (h : t.WellFormed) : t.visible.Pairwise (· < ·) := by
  induction h with
  | text content => exact List.pairwise_singleton _ _
  | bytes => exact List.pairwise_singleton _ _
  | @directory entries hkeys hnames h ih =>
    rw [visible, List.pairwise_flatMap]
    constructor
    · intro e he
      obtain ⟨t, ht, -, hsteps⟩ := mem_visibleIn_iff.mp (List.mem_mergeSort.mp he)
      rw [hsteps, List.pairwise_map]
      exact (ih (e.1, t) ht).imp fun hlt => List.cons_lt_cons_iff.mpr (.inr ⟨rfl, hlt⟩)
    · have hnodup := hkeys.sublist (keys_visibleIn_sublist entries)
      refine (pairwise_mergeSort hnodup).imp_of_mem fun ha hb hlt steps hsteps steps' hsteps' => ?_
      obtain ⟨t, -, -, heq⟩ := mem_visibleIn_iff.mp (List.mem_mergeSort.mp ha)
      obtain ⟨t', -, -, heq'⟩ := mem_visibleIn_iff.mp (List.mem_mergeSort.mp hb)
      rw [heq] at hsteps
      rw [heq'] at hsteps'
      obtain ⟨rest, -, rfl⟩ := List.mem_map.mp hsteps
      obtain ⟨rest', -, rfl⟩ := List.mem_map.mp hsteps'
      exact List.cons_lt_cons_iff.mpr (.inl hlt)

end FileTree

/-! ### The tree at a path -/

namespace FileTree

theorem WellFormed.of_mem {entries : Fields FileTree OsString} (h : WellFormed (.directory entries)) {e : OsString × FileTree}
    (he : e ∈ entries) : e.2.WellFormed := by
  cases h with
  | directory hkeys hnames h => exact h e he

theorem wellFormed_walk {segments : List OsString} {above : List FileTree} {t found : FileTree}
    (habove : ∀ t ∈ above, t.WellFormed) (ht : t.WellFormed) (h : walk segments above t = .ok found) :
    found.WellFormed := by
  fun_induction walk segments above t with
  | case1 above t =>
    cases h
    exact ht
  | case2 segment rest above entries name hname t hget ih =>
    exact ih (List.forall_mem_cons.mpr ⟨ht, habove⟩) (ht.of_mem (Fields.mem_of_get? hget)) h
  | case3 => cases h
  | case4 segment rest entries hup ih => exact ih (by simp) ht h
  | case5 segment rest entries hup up above ih =>
    obtain ⟨hup, habove⟩ := List.forall_mem_cons.mp habove
    exact ih habove hup h
  | case6 segment rest above entries hname hup ih => exact ih habove ht h
  | case7 => cases h

end FileTree

theorem Disk.wellFormed_lookup {disk : Disk} (h : disk.top.WellFormed) {p : Path} {t : FileTree}
    (hlookup : disk.lookup p = .ok t) : t.WellFormed := by
  rw [lookup] at hlookup
  split at hlookup
  · cases hlookup
  · exact FileTree.wellFormed_walk (by simp) h hlookup

end Inclusion
