import Inclusion.Proofs.Catalog.Index
import Inclusion.Proofs.Disk.Path
import Mathlib.Data.List.Induction
/-!
# Which components an index holds

The templates under the roots, root by root and in each root in the lexicographic order of the steps that lead to them,
are the entries that a search goes through (`Entries`). Which template counts when two have one name, and which two are
reported, depends on that order alone: an index holds the last entry with each name, and a search that rejects
duplicates reports the first entry whose name an earlier entry has.
-/

namespace Inclusion

/-! ### The component of a template -/

theorem templateName?_eq_some_iff {extension file name : String} :
    templateName? extension file = some name ↔ name ≠ "" ∧ file = name ++ "." ++ extension := by
  have htext : (name ++ "." ++ extension).toList = name.toList ++ '.' :: extension.toList := by simp
  have hfile : file = name ++ "." ++ extension ↔ file.toList = name.toList ++ '.' :: extension.toList := by
    rw [← htext, String.toList_inj]
  rw [hfile]
  unfold templateName?
  dsimp only
  constructor
  · intro h
    split at h
    · next hsuffix =>
      rw [Bool.and_eq_true, List.isSuffixOf_iff_suffix, decide_eq_true_eq] at hsuffix
      obtain ⟨⟨front, hfront⟩, hlength⟩ := hsuffix
      have hname : String.ofList front = name := by
        rw [← hfront] at h
        simpa using h
      subst hname
      rw [← hfront] at hlength
      refine ⟨?_, by rw [String.toList_ofList, hfront]⟩
      rintro hempty
      rw [← String.toList_inj, String.toList_ofList] at hempty
      simp [hempty] at hlength
    · cases h
  · rintro ⟨hname, hfile⟩
    have hpos : 0 < name.toList.length := by
      rw [List.length_pos_iff, ne_eq, String.toList_eq_nil_iff]
      exact hname
    rw [hfile, if_pos]
    · simp
    · rw [Bool.and_eq_true, List.isSuffixOf_iff_suffix, decide_eq_true_eq]
      refine ⟨List.suffix_append _ _, ?_⟩
      simp only [List.length_append, List.length_cons]
      omega

/-- Where a template lies below a root. The directories can have any names; the name of the template is a text. -/
structure Place where
  directories : List OsString
  name : String
  deriving DecidableEq, Repr

namespace Place

/-- The name of the file of the template. -/
def file (s : Settings) (p : Place) : OsString :=
  OsString.ofText (p.name ++ "." ++ s.templateExtension)

/-- The steps from the root to the template. -/
def steps (s : Settings) (p : Place) : List OsString :=
  p.directories ++ [p.file s]

/-- The path of the template below its root, with the names of the directories as they are displayed. -/
def relative (s : Settings) (p : Place) : String :=
  "/".intercalate (p.directories.map OsString.display ++ [p.name ++ "." ++ s.templateExtension])

/-- The component whose template lies there. -/
def component (s : Settings) (root : Path) (p : Place) : Component where
  name := p.name
  templateId := "@" ++ s.ns ++ "/" ++ p.relative s
  configPath :=
    (FileTree.pathOf root (p.steps s)).withFileName (OsString.ofText (p.name ++ ".config." ++ s.configExtension))

/-- The place at the end of steps, if they lead to a file with the name of a template. -/
def ofSteps? (s : Settings) (steps : List OsString) : Option Place :=
  (steps.getLast?.bind OsString.text?).bind fun file =>
    (templateName? s.templateExtension file).map fun name => ⟨steps.dropLast, name⟩

theorem ofSteps?_eq_some_iff {s : Settings} {steps : List OsString} {p : Place} :
    ofSteps? s steps = some p ↔ p.name ≠ "" ∧ steps = p.steps s := by
  rw [ofSteps?, Option.bind_eq_some_iff]
  constructor
  · rintro ⟨file, hfile, hplace⟩
    obtain ⟨last, hlast, htext⟩ := Option.bind_eq_some_iff.mp hfile
    obtain rfl := OsString.text?_eq_some_iff.mp htext
    obtain ⟨name, hname, rfl⟩ := Option.map_eq_some_iff.mp hplace
    obtain ⟨hne, rfl⟩ := templateName?_eq_some_iff.mp hname
    exact ⟨hne, (List.dropLast_append_getLast? _ hlast).symm⟩
  · rintro ⟨hne, rfl⟩
    have hname : templateName? s.templateExtension (p.name ++ "." ++ s.templateExtension) = some p.name :=
      templateName?_eq_some_iff.mpr ⟨hne, rfl⟩
    refine ⟨p.name ++ "." ++ s.templateExtension, ?_, ?_⟩
    · rw [Place.steps, List.getLast?_concat, Option.bind_some]
      exact OsString.text?_eq_some_iff.mpr rfl
    · rw [hname, Place.steps, List.dropLast_concat]
      rfl

theorem ofFile_pathOf {s : Settings} (root : Path) {steps : List OsString} (hne : steps ≠ [])
    (h : ∀ name ∈ steps, IsFileName name) :
    Component.ofFile s root (FileTree.pathOf root steps) = (ofSteps? s steps).map (component s root) := by
  obtain ⟨directories, last, rfl⟩ := (List.eq_nil_or_concat steps).resolve_left hne
  rw [List.concat_eq_append] at h ⊢
  have hcomponents := FileTree.components_pathOf root h
  have hfile : (FileTree.pathOf root (directories ++ [last])).fileName? = some last := by
    rw [Path.fileName?, hcomponents, List.map_append, ← List.append_assoc, List.map_singleton, List.getLast?_concat]
  have hshown : (((FileTree.pathOf root (directories ++ [last])).components.drop root.components.length).map
      fun step => step.bytes.display) = (directories ++ [last]).map OsString.display := by
    rw [hcomponents, List.drop_left, List.map_map]
    rfl
  rw [Component.ofFile, hfile, ofSteps?, List.getLast?_concat, Option.bind_some]
  cases htext : last.text? with
  | none => rfl
  | some file =>
    obtain rfl := OsString.text?_eq_some_iff.mp htext
    dsimp only
    rw [hshown, Option.bind_some, List.dropLast_concat]
    cases hname : templateName? s.templateExtension file with
    | none => rfl
    | some name =>
      obtain ⟨-, rfl⟩ := templateName?_eq_some_iff.mp hname
      rw [List.map_append, List.map_singleton, OsString.display_ofText]
      rfl

end Place

/-! ### The entries of a search -/

/-- The places are those of all templates in a tree that are not hidden, in the lexicographic order of their steps, which
are compared by their bytes. A file whose name is no text is not the template of any name. -/
structure Enumerates (s : Settings) (t : FileTree) (places : List Place) : Prop where
  mem_iff : ∀ p, p ∈ places ↔ p.name ≠ "" ∧ t.HasFile (p.steps s) ∧ ∀ step ∈ p.steps s, ¬ IsHidden step
  sorted : places.Pairwise fun p q => p.steps s < q.steps s

/-- The components of the templates under roots, root by root. -/
inductive Entries (s : Settings) (disk : Disk) : List Path → List Component → Prop
  | nil : Entries s disk [] []
  | cons {root : Path} {roots : List Path} {t : FileTree} {places : List Place} {entries : List Component}
    (hroot : disk.lookup root = .ok t) (hplaces : Enumerates s t places) (h : Entries s disk roots entries) :
    Entries s disk (root :: roots) (places.map (Place.component s root) ++ entries)

theorem Enumerates.unique {s : Settings} {t : FileTree} {places places' : List Place} (h : Enumerates s t places)
    (h' : Enumerates s t places') : places = places' := by
  have hne {p q : Place} (hlt : p.steps s < q.steps s) : p ≠ q := by
    rintro rfl
    exact List.lt_irrefl _ hlt
  refine List.Perm.eq_of_pairwise (fun p q _ _ hlt hlt' => absurd hlt' (List.lt_asymm hlt)) h.sorted h'.sorted ?_
  refine (List.perm_ext_iff_of_nodup (h.sorted.imp hne) (h'.sorted.imp hne)).mpr fun p => ?_
  rw [h.mem_iff, h'.mem_iff]

theorem Entries.unique {s : Settings} {disk : Disk} {roots : List Path} {entries entries' : List Component}
    (h : Entries s disk roots entries) (h' : Entries s disk roots entries') : entries = entries' := by
  induction h generalizing entries' with
  | nil =>
    cases h'
    rfl
  | cons hroot hplaces _ ih =>
    cases h' with
    | cons hroot' hplaces' h' =>
      cases hroot.symm.trans hroot'
      rw [hplaces.unique hplaces', ih h']

theorem enumerates_visible {s : Settings} {t : FileTree} (h : t.WellFormed) :
    Enumerates s t (t.visible.filterMap (Place.ofSteps? s)) := by
  constructor
  · intro p
    simp only [List.mem_filterMap, Place.ofSteps?_eq_some_iff]
    constructor
    · rintro ⟨steps, hsteps, hname, rfl⟩
      exact ⟨hname, (FileTree.mem_visible_iff h).mp hsteps⟩
    · rintro ⟨hname, hvisible⟩
      exact ⟨p.steps s, (FileTree.mem_visible_iff h).mpr hvisible, hname, rfl⟩
  · refine (FileTree.pairwise_visible h).filterMap _ ?_
    intro steps steps' hlt p hp q hq
    rw [← (Place.ofSteps?_eq_some_iff.mp hp).2, ← (Place.ofSteps?_eq_some_iff.mp hq).2]
    exact hlt

/-- The search of a directory goes through its places. -/
theorem componentsUnder_eq {s : Settings} {disk : Disk} (hdisk : disk.top.WellFormed) {root : Path}
    {contents : Fields FileTree OsString} (hroot : disk.lookup root = .ok (.directory contents)) :
    Index.componentsUnder s disk root =
      .ok (((FileTree.directory contents).visible.filterMap (Place.ofSteps? s)).map (Place.component s root)) := by
  have h := disk.wellFormed_lookup hdisk hroot
  rw [Index.componentsUnder, hroot]
  dsimp only
  rw [FileTree.files_eq_map, List.filterMap_map, List.map_filterMap]
  refine congrArg Except.ok (List.filterMap_congr fun steps hsteps => ?_)
  obtain ⟨⟨file, hfile, -⟩, -⟩ := (FileTree.mem_visible_iff h).mp hsteps
  have hne : steps ≠ [] := by
    obtain ⟨name, rest, t, rfl, -⟩ := FileTree.mem_visible_directory.mp hsteps
    exact List.cons_ne_nil _ _
  exact Place.ofFile_pathOf root hne (h.isFileName hfile)

/-! ### What a search of the roots builds -/

/-- The index holds the names of the entries, each with the last entry of that name. -/
structure HoldsLast (entries : List Component) (index : Index) : Prop where
  nodup : (Fields.keys index).Nodup
  mem_keys_iff : ∀ name, name ∈ Fields.keys index ↔ ∃ c ∈ entries, c.name = name
  get? : ∀ name, Fields.get? name index = (entries.filter fun c => c.name = name).getLast?

theorem holdsLast_putAll (entries : List Component) : HoldsLast entries (Index.putAll [] entries) := by
  have hget (name : String) : Fields.get? name (Index.putAll [] entries) =
      (entries.filter fun c => c.name = name).getLast? := by
    rw [Index.get?_putAll, Fields.get?_nil, Option.or_none]
  have hempty : (Fields.keys ([] : Index)).Nodup := List.nodup_nil
  refine ⟨Index.nodup_keys_putAll hempty entries, fun name => ?_, hget⟩
  rw [← not_iff_not, ← Fields.get?_eq_none_iff, hget, List.getLast?_eq_none_iff, List.filter_eq_nil_iff]
  simp

/-- Roots that are directories are searched as one list of entries. -/
theorem foldlM_addRoot_eq {s : Settings} {disk : Disk} (hdisk : disk.top.WellFormed) {roots : List Path}
    (hroots : ∀ root ∈ roots, ∃ contents, disk.lookup root = .ok (.directory contents)) :
    ∃ entries, Entries s disk roots entries ∧ ∀ index policy,
      roots.foldlM (Index.addRoot { s with duplicates := policy } disk) index = entries.foldlM (Index.add policy) index := by
  induction roots with
  | nil => exact ⟨[], .nil, fun _ _ => rfl⟩
  | cons root roots ih =>
    obtain ⟨⟨contents, hroot⟩, hroots⟩ := List.forall_mem_cons.mp hroots
    obtain ⟨entries, hentries, hfold⟩ := ih hroots
    refine ⟨_, .cons hroot (enumerates_visible (disk.wellFormed_lookup hdisk hroot)) hentries, fun index policy => ?_⟩
    have hunder : Index.componentsUnder { s with duplicates := policy } disk root = _ := componentsUnder_eq hdisk hroot
    rw [List.foldlM_cons, Index.addRoot, hunder, List.foldlM_append]
    exact congrArg _ (funext fun index => hfold index policy)

/-- A list with a repeated name has a first entry that repeats one. -/
theorem exists_first_duplicate {entries : List Component} (h : ¬ (entries.map Component.name).Nodup) :
    ∃ before old between c after, entries = before ++ old :: between ++ c :: after ∧
      ((before ++ old :: between).map Component.name).Nodup ∧ old.name = c.name := by
  induction entries using List.reverseRecOn with
  | nil => exact absurd List.nodup_nil h
  | append_singleton entries c ih =>
    by_cases hdistinct : (entries.map Component.name).Nodup
    · have hmem : c.name ∈ entries.map Component.name := by
        by_contra hnew
        apply h
        rw [List.map_append, List.map_singleton, ← List.concat_eq_append]
        exact List.Nodup.concat hnew hdistinct
      obtain ⟨old, hold, hname⟩ := List.mem_map.mp hmem
      obtain ⟨before, between, rfl⟩ := List.append_of_mem hold
      exact ⟨before, old, between, c, [], rfl, hdistinct, hname⟩
    · obtain ⟨before, old, between, first, after, rfl, hbefore, hname⟩ := ih hdistinct
      exact ⟨before, old, between, first, after ++ [c], by simp, hbefore, hname⟩

/-- What a search of directories builds. There is one list of entries that it goes through. The name of an entry is a
text, so a file whose name is not UTF-8 is none, whatever its last bytes are. If the last template wins, the index holds
the last entry of each name. If duplicates are rejected, the search succeeds exactly when the names are distinct, and
then builds the same index; otherwise it reports the first entry whose name an earlier entry has, and that earlier
entry. -/
theorem build_directories (s : Settings) {disk : Disk} (hdisk : disk.top.WellFormed) {roots : List Path}
    (hne : roots ≠ []) (hroots : ∀ root ∈ roots, ∃ contents, disk.lookup root = .ok (.directory contents)) :
    let build (policy : DuplicatePolicy) := Index.build { s with duplicates := policy } disk roots
    ∃ entries, Entries s disk roots entries ∧ (∀ others, Entries s disk roots others → others = entries) ∧
      (∃ index, build .lastWins = .ok index ∧ HoldsLast entries index) ∧
      ((∃ index, build .reject = .ok index) ↔ (entries.map Component.name).Nodup) ∧
      ((entries.map Component.name).Nodup → build .reject = build .lastWins) ∧
      (¬ (entries.map Component.name).Nodup → ∃ before old between c after,
        entries = before ++ old :: between ++ c :: after ∧ ((before ++ old :: between).map Component.name).Nodup ∧
        old.name = c.name ∧ build .reject = .error (.duplicate c.name old.templateId c.templateId)) := by
  intro build
  obtain ⟨entries, hentries, hfold⟩ := foldlM_addRoot_eq (s := s) hdisk hroots
  have hbuild (policy : DuplicatePolicy) : build policy = entries.foldlM (Index.add policy) [] := by
    rw [← hfold [] policy]
    exact if_neg (by simpa using hne)
  have hlast : build .lastWins = .ok (Index.putAll [] entries) := by
    rw [hbuild, Index.foldlM_add_lastWins]
  have hdistinct (h : (entries.map Component.name).Nodup) : build .reject = .ok (Index.putAll [] entries) := by
    rw [hbuild, Index.foldlM_add_reject h fun _ _ => List.not_mem_nil]
  have hduplicate (h : ¬ (entries.map Component.name).Nodup) : ∃ before old between c after,
      entries = before ++ old :: between ++ c :: after ∧ ((before ++ old :: between).map Component.name).Nodup ∧
      old.name = c.name ∧ build .reject = .error (.duplicate c.name old.templateId c.templateId) := by
    obtain ⟨before, old, between, c, after, rfl, hbefore, hname⟩ := exists_first_duplicate h
    refine ⟨before, old, between, c, after, rfl, hbefore, hname, ?_⟩
    rw [hbuild, Index.foldlM_add_reject_duplicate hbefore hname]
  refine ⟨entries, hentries, fun others h => h.unique hentries, ⟨_, hlast, holdsLast_putAll entries⟩, ⟨?_, ?_⟩, ?_, hduplicate⟩
  · rintro ⟨index, hindex⟩
    by_contra h
    obtain ⟨before, old, between, c, after, -, -, -, herror⟩ := hduplicate h
    rw [herror] at hindex
    cases hindex
  · intro h
    exact ⟨_, hdistinct h⟩
  · intro h
    rw [hdistinct h, hlast]

/-- The directory `a` comes before `a-b`, although the text `a-b/card.twig` comes before `a/card.twig`. The file with a
byte in front of its extension that is no character is not found. -/
theorem build_directories_card :
    let card : FileTree := .directory [("card.twig", .text "")]
    let r : Fields FileTree OsString :=
      [("a", card), ("a-b", card), (".git", card), (0xFF :: OsString.ofText ".twig", .text "")]
    let disk : Disk := ⟨.directory [("r", .directory r)], []⟩
    let roots : List Path := [⟨"r"⟩]
    disk.top.WellFormed ∧ roots ≠ [] ∧ (∀ root ∈ roots, ∃ contents, disk.lookup root = .ok (.directory contents)) ∧
      (∃ index, Index.build {} disk roots = .ok index ∧
        Fields.get? "card" index = some ⟨"card", "@FrctlTwig/a-b/card.twig", ⟨"r/a-b/card.config.yml"⟩⟩) ∧
      Index.build { duplicates := .reject } disk roots =
        .error (.duplicate "card" "@FrctlTwig/a/card.twig" "@FrctlTwig/a-b/card.twig") := by
  intro card r disk roots
  have hcard : card.WellFormed :=
    .directory (by decide) (List.forall_mem_singleton.mpr (by decide)) (List.forall_mem_singleton.mpr (.text ""))
  have hr : (FileTree.directory r).WellFormed := by
    refine .directory (by decide) (by decide) ?_
    simp only [r, List.forall_mem_cons]
    exact ⟨hcard, hcard, hcard, .text "", by simp⟩
  have hdisk : disk.top.WellFormed :=
    .directory (by decide) (List.forall_mem_singleton.mpr (by decide)) (List.forall_mem_singleton.mpr hr)
  have hlookup : disk.lookup ⟨"r"⟩ = .ok (.directory r) := rfl
  have hroots : ∀ root ∈ roots, ∃ contents, disk.lookup root = .ok (.directory contents) := by
    simp [roots, hlookup]
  have hvisible : (FileTree.directory r).visible =
      ([["a", "card.twig"], ["a-b", "card.twig"], [0xFF :: OsString.ofText ".twig"]] : List (List OsString)) := by
    have hcards : card.visible = ([["card.twig"]] : List (List OsString)) := by
      rw [FileTree.visible, List.mergeSort_of_pairwise (by decide +kernel)]
      decide +kernel
    have hin : FileTree.visibleIn r = ([("a", [["a", "card.twig"]]), ("a-b", [["a-b", "card.twig"]]),
        (0xFF :: OsString.ofText ".twig", [[0xFF :: OsString.ofText ".twig"]])] :
          List (OsString × List (List OsString))) := by
      simp only [FileTree.visibleIn, r, hcards]
      rfl
    rw [FileTree.visible, hin, List.mergeSort_of_pairwise (by decide +kernel)]
    rfl
  have hplaces : (FileTree.directory r).visible.filterMap (Place.ofSteps? {}) = [⟨["a"], "card"⟩, ⟨["a-b"], "card"⟩] := by
    rw [hvisible]
    decide +kernel
  have hentries : Entries {} disk roots
      [⟨"card", "@FrctlTwig/a/card.twig", ⟨"r/a/card.config.yml"⟩⟩,
        ⟨"card", "@FrctlTwig/a-b/card.twig", ⟨"r/a-b/card.config.yml"⟩⟩] := by
    have h := Entries.cons hlookup (enumerates_visible (s := {}) hr) .nil
    rw [hplaces] at h
    exact h
  obtain ⟨entries, -, hunique, ⟨index, hindex, hholds⟩, -, -, hduplicate⟩ :=
    build_directories {} hdisk (List.cons_ne_nil _ _) hroots
  obtain rfl := hunique _ hentries
  refine ⟨hdisk, List.cons_ne_nil _ _, hroots, ⟨index, hindex, hholds.get? "card"⟩, ?_⟩
  obtain ⟨before, old, between, c, after, hsplit, -, -, herror⟩ := hduplicate (by decide)
  have hlength := congrArg List.length hsplit
  simp only [List.length_append, List.length_cons, List.length_nil] at hlength
  have hbefore : before = [] := List.eq_nil_of_length_eq_zero (by omega)
  have hbetween : between = [] := List.eq_nil_of_length_eq_zero (by omega)
  subst hbefore hbetween
  cases hsplit
  exact herror

end Inclusion
