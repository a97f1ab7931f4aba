import Inclusion.Proofs.Catalog.Build
/-!
# Disks with the same paths

Two trees have the same shape if the same steps lead to a file in both, and the same steps to a directory; the files
themselves can differ. Walking trees of the same shape leads to trees of the same shape (`walk_of_sameShape`), and the
files that are met on the way are at the same steps in the same order (`visible_of_sameShape`). So a search for
components finds the same ones: it never looks into a file.
-/

namespace Inclusion

namespace FileTree

def isDirectory : FileTree → Bool
  | .directory _ => true
  | _ => false

theorem isFile_iff {t : FileTree} : t.IsFile ↔ t.isDirectory = false := by
  cases t <;> simp [IsFile, isDirectory]

/-- The same steps lead to files, and the same steps lead to directories. -/
def SameShape (t t' : FileTree) : Prop :=
  ∀ steps, (t.at? steps).map isDirectory = (t'.at? steps).map isDirectory

variable {t t' : FileTree}

theorem SameShape.of_isFile (h : t.IsFile) (h' : t'.IsFile) : SameShape t t' := by
  intro steps
  cases steps with
  | nil =>
    rw [at?, at?, Option.map_some, Option.map_some, isFile_iff.mp h, isFile_iff.mp h']
  | cons name steps =>
    have hnone {u : FileTree} (hu : u.IsFile) : u.at? (name :: steps) = none := by
      cases u with
      | directory entries => cases hu
      | _ => rfl
    rw [hnone h, hnone h']

theorem SameShape.cons {entries entries' : Fields FileTree OsString} (name : OsString) (h : SameShape t t')
    (hrest : SameShape (.directory entries) (.directory entries')) :
    SameShape (.directory ((name, t) :: entries)) (.directory ((name, t') :: entries')) := by
  intro steps
  cases steps with
  | nil => rfl
  | cons step steps =>
    by_cases hname : name = step
    · simpa [at?, Fields.get?, hname] using h steps
    · simpa [at?, Fields.get?, hname] using hrest (step :: steps)

theorem SameShape.isDirectory_eq (h : SameShape t t') : t.isDirectory = t'.isDirectory :=
  Option.some.inj (h [])

theorem SameShape.hasFile_iff (h : SameShape t t') (steps : List OsString) : t.HasFile steps ↔ t'.HasFile steps := by
  have hfile (u : FileTree) : u.HasFile steps ↔ (u.at? steps).map isDirectory = some false := by
    rw [HasFile, Option.map_eq_some_iff]
    exact exists_congr fun file => and_congr_right fun _ => isFile_iff
  rw [hfile, hfile, h steps]

/-- What has a name in one directory has it in the other one, and has the same shape. -/
theorem SameShape.get? {entries entries' : Fields FileTree OsString} (h : SameShape (.directory entries) (.directory entries'))
    (name : OsString) : Fields.get? name entries = none ∧ Fields.get? name entries' = none ∨
      ∃ u u', Fields.get? name entries = some u ∧ Fields.get? name entries' = some u' ∧ SameShape u u' := by
  have hname (steps : List OsString) : ((Fields.get? name entries).bind (at? steps)).map isDirectory =
      ((Fields.get? name entries').bind (at? steps)).map isDirectory := h (name :: steps)
  cases hu : Fields.get? name entries with
  | none =>
    left
    refine ⟨rfl, ?_⟩
    have hnone := hname []
    rw [hu, Option.bind_none, Option.map_none, eq_comm, Option.map_eq_none_iff] at hnone
    cases hu' : Fields.get? name entries' with
    | none => rfl
    | some u' =>
      rw [hu'] at hnone
      cases hnone
  | some u =>
    right
    cases hu' : Fields.get? name entries' with
    | none =>
      have hnone := hname []
      rw [hu, hu'] at hnone
      cases hnone
    | some u' =>
      rw [hu, hu'] at hname
      exact ⟨u, u', rfl, rfl, hname⟩

/-- Two walks that fail in the same way, or lead to trees of the same shape. -/
inductive Alike : Except AccessError FileTree → Except AccessError FileTree → Prop
  | error (e : AccessError) : Alike (.error e) (.error e)
  | ok {t t' : FileTree} (h : SameShape t t') : Alike (.ok t) (.ok t')

theorem walk_of_sameShape {segments : List OsString} {above above' : List FileTree}
    (habove : List.Forall₂ SameShape above above') (h : SameShape t t') :
    Alike (walk segments above t) (walk segments above' t') := by
  induction segments generalizing above above' t t' with
  | nil => exact .ok h
  | cons segment rest ih =>
    have hkind := h.isDirectory_eq
    cases t with
    | directory entries =>
      cases t' with
      | directory entries' =>
        simp only [walk]
        split
        · next name _ =>
          obtain ⟨hu, hu'⟩ | ⟨u, u', hu, hu', hshape⟩ := h.get? name
          · simp only [hu, hu']
            exact .error _
          · simp only [hu, hu']
            exact ih (.cons h habove) hshape
        · cases habove with
          | nil => exact ih .nil h
          | cons hup habove => exact ih habove hup
        · exact ih habove h
      | _ => cases hkind
    | _ =>
      cases t' with
      | directory entries' => cases hkind
      | _ => exact .error _

theorem visible_of_sameShape (ht : t.WellFormed) (ht' : t'.WellFormed) (h : SameShape t t') : t.visible = t'.visible := by
  have hne {steps steps' : List OsString} (hlt : steps < steps') : steps ≠ steps' := by
    rintro rfl
    exact List.lt_irrefl _ hlt
  have hsorted := pairwise_visible ht
  have hsorted' := pairwise_visible ht'
  refine List.Perm.eq_of_pairwise (fun a b _ _ hlt hlt' => absurd hlt' (List.lt_asymm hlt)) hsorted hsorted' ?_
  refine (List.perm_ext_iff_of_nodup (hsorted.imp hne) (hsorted'.imp hne)).mpr fun steps => ?_
  rw [mem_visible_iff ht, mem_visible_iff ht', h.hasFile_iff]

end FileTree

/-! ### Disks -/

/-- The disks have the same files and directories. What is in the files can differ. -/
structure Disk.SamePaths (disk disk' : Disk) : Prop where
  current : disk.current = disk'.current
  top : FileTree.SameShape disk.top disk'.top

variable {disk disk' : Disk}

theorem Disk.SamePaths.lookup (h : disk.SamePaths disk') (p : Path) :
    FileTree.Alike (disk.lookup p) (disk'.lookup p) := by
  rw [Disk.lookup, Disk.lookup, h.current]
  split
  · exact .error _
  · exact FileTree.walk_of_sameShape .nil h.top

theorem Index.componentsUnder_of_samePaths (hdisk : disk.top.WellFormed) (hdisk' : disk'.top.WellFormed)
    (h : disk.SamePaths disk') (s : Settings) (root : Path) :
    componentsUnder s disk root = componentsUnder s disk' root := by
  have halike := h.lookup root
  rw [componentsUnder, componentsUnder]
  cases hu : disk.lookup root with
  | error e =>
    cases hu' : disk'.lookup root with
    | error e' =>
      rw [hu, hu'] at halike
      cases halike
      rfl
    | ok t' =>
      rw [hu, hu'] at halike
      cases halike
  | ok t =>
    cases hu' : disk'.lookup root with
    | error e' =>
      rw [hu, hu'] at halike
      cases halike
    | ok t' =>
      rw [hu, hu'] at halike
      cases halike with
      | ok hshape =>
        have hvisible := FileTree.visible_of_sameShape (disk.wellFormed_lookup hdisk hu)
          (disk'.wellFormed_lookup hdisk' hu') hshape
        dsimp only
        rw [FileTree.files_eq_map, FileTree.files_eq_map, hvisible]

/-- A search finds the same components on disks with the same paths. -/
theorem Index.build_of_samePaths (hdisk : disk.top.WellFormed) (hdisk' : disk'.top.WellFormed)
    (h : disk.SamePaths disk') (s : Settings) (roots : List Path) : build s disk roots = build s disk' roots := by
  have hroot : addRoot s disk = addRoot s disk' := by
    funext index root
    rw [addRoot, addRoot, componentsUnder_of_samePaths hdisk hdisk' h]
  rw [build, build, hroot]

theorem Catalog.getIndex_of_samePaths (hdisk : disk.top.WellFormed) (hdisk' : disk'.top.WellFormed)
    (h : disk.SamePaths disk') (c : Catalog) : c.getIndex disk = c.getIndex disk' := by
  rw [getIndex, getIndex, Index.build_of_samePaths hdisk hdisk' h]

end Inclusion
