import Inclusion.Proofs.Catalog.Build
import Inclusion.Proofs.Disk.Below
import Inclusion.Proofs.Expr.Eval
/-!
# The template that an id designates

The id of a component gives the path of its template below the root in which it was found, but not that root. Whoever
includes the template looks the path up in the roots of the namespace, and takes the first one that has such a file
(`Disk.search`). That is the template of the component unless an earlier root has a file at the same path, which cannot
be if duplicates are rejected (`origin_of_build`).
-/

namespace Inclusion

/-! ### The first file in some roots -/

namespace Disk

/-- The path leads to a file. -/
def isFile (d : Disk) (p : Path) : Bool :=
  match d.lookup p with
  | .ok (.directory _) | .error _ => false
  | .ok _ => true

/-- The file at a relative path, in the first of the roots that has one there. -/
def search (d : Disk) (roots : List Path) (relative : String) : Option Path :=
  (roots.map fun root => root.join ⟨relative⟩).find? d.isFile

variable {d : Disk}

theorem isFile_iff {p : Path} : d.isFile p = true ↔ ∃ t, (d.lookup p).toOption = some t ∧ t.IsFile := by
  rw [isFile]
  cases d.lookup p with
  | error e => simp [Except.toOption]
  | ok t => cases t <;> simp [Except.toOption, FileTree.IsFile]

theorem search_append (before after : List Path) (relative : String) :
    d.search (before ++ after) relative = (d.search before relative).or (d.search after relative) := by
  rw [search, List.map_append, List.find?_append]
  rfl

theorem search_cons_of_isFile {root : Path} {relative : String} (h : d.isFile (root.join ⟨relative⟩) = true)
    (roots : List Path) : d.search (root :: roots) relative = some (root.join ⟨relative⟩) := by
  rw [search, List.map_cons, List.find?_cons_of_pos h]

theorem search_eq_none_iff {roots : List Path} {relative : String} :
    d.search roots relative = none ↔ ∀ root ∈ roots, d.isFile (root.join ⟨relative⟩) = false := by
  rw [search, List.find?_eq_none]
  simp

theorem bytes_ne_nil_of_lookup {p : Path} {t : FileTree} (h : d.lookup p = .ok t) : p.bytes ≠ [] := by
  rw [ne_eq, ← Path.components_eq_nil_iff]
  exact components_ne_nil_of_lookup h

theorem isFile_pathOf_iff {root : Path} {t : FileTree} (hroot : d.lookup root = .ok t) {steps : List OsString}
    (h : ∀ name ∈ steps, IsFileName name) : d.isFile (FileTree.pathOf root steps) = true ↔ t.HasFile steps := by
  rw [isFile_iff, d.toOption_lookup_pathOf (bytes_ne_nil_of_lookup hroot) h, hroot]
  rfl

end Disk

/-! ### What a search of any roots goes through -/

namespace Index

variable {s : Settings} {disk : Disk}

theorem eq_putAll_of_foldlM_add {policy : DuplicatePolicy} {components : List Component} {index index' : Index}
    (h : components.foldlM (add policy) index = .ok index') : index' = putAll index components := by
  induction components generalizing index with
  | nil =>
    cases h
    rfl
  | cons c rest ih =>
    rw [List.foldlM_cons] at h
    obtain ⟨next, hadd, hrest⟩ := exists_of_bind_eq_ok h
    rw [ih hrest, eq_put_of_add hadd]
    rfl

theorem nodup_of_foldlM_add_reject {components : List Component} {index : Index}
    (h : components.foldlM (add .reject) [] = .ok index) : (components.map Component.name).Nodup := by
  by_contra hduplicate
  obtain ⟨before, old, between, c, after, rfl, hbefore, hname⟩ := exists_first_duplicate hduplicate
  rw [foldlM_add_reject_duplicate hbefore hname] at h
  cases h

/-- The components under a root, none if it cannot be searched. -/
def found (s : Settings) (disk : Disk) (root : Path) : List Component :=
  (componentsUnder s disk root).toOption.getD []

theorem found_of_componentsUnder {root : Path} {components : List Component}
    (h : componentsUnder s disk root = .ok components) : found s disk root = components := by
  rw [found, h]
  rfl

/-- A search of some roots adds the components under them, root by root. -/
theorem foldlM_add_found_of_foldlM_addRoot {roots : List Path} {index index' : Index}
    (h : roots.foldlM (addRoot s disk) index = .ok index') :
    (∀ root ∈ roots, ∃ components, componentsUnder s disk root = .ok components) ∧
      (roots.flatMap (found s disk)).foldlM (add s.duplicates) index = .ok index' := by
  induction roots generalizing index with
  | nil => exact ⟨by simp, h⟩
  | cons root roots ih =>
    rw [List.foldlM_cons] at h
    obtain ⟨next, hroot, hrest⟩ := exists_of_bind_eq_ok h
    obtain ⟨hroots, hfold⟩ := ih hrest
    rw [addRoot] at hroot
    split at hroot
    · next components hunder =>
      refine ⟨List.forall_mem_cons.mpr ⟨⟨components, hunder⟩, hroots⟩, ?_⟩
      rw [List.flatMap_cons, found_of_componentsUnder hunder, List.foldlM_append, hroot]
      exact hfold
    · cases hroot

/-- Every component in an index was found under one of the roots. If duplicates are rejected, none with its name was
found under a root before that one. -/
theorem exists_root_of_build {roots : List Path} {index : Index} (h : build s disk roots = .ok index) {name : String}
    {c : Component} (hc : Fields.get? name index = some c) :
    c.name = name ∧ ∃ before root after, roots = before ++ root :: after ∧ c ∈ found s disk root ∧
      (∀ root ∈ roots, ∃ components, componentsUnder s disk root = .ok components) ∧
      (s.duplicates = .reject → ∀ earlier ∈ before, ∀ other ∈ found s disk earlier, other.name ≠ name) := by
  rw [build] at h
  split at h
  · cases h
  · obtain ⟨hroots, hfold⟩ := foldlM_add_found_of_foldlM_addRoot h
    have hget := hc
    rw [eq_putAll_of_foldlM_add hfold, get?_putAll, Fields.get?_nil, Option.or_none] at hget
    obtain ⟨hall, hname⟩ := List.mem_filter.mp (List.mem_of_getLast? hget)
    have hname : c.name = name := of_decide_eq_true hname
    obtain ⟨root, hroot, hfound⟩ := List.mem_flatMap.mp hall
    obtain ⟨before, after, rfl⟩ := List.append_of_mem hroot
    refine ⟨hname, before, root, after, rfl, hfound, hroots, ?_⟩
    intro hreject earlier hearlier other hother heq
    rw [hreject] at hfold
    have hdistinct := nodup_of_foldlM_add_reject hfold
    rw [List.flatMap_append, List.map_append, List.nodup_append] at hdistinct
    refine hdistinct.2.2 name ?_ name ?_ rfl
    · rw [← heq]
      exact List.mem_map_of_mem (List.mem_flatMap.mpr ⟨earlier, hearlier, hother⟩)
    · rw [← hname]
      exact List.mem_map_of_mem (List.mem_flatMap.mpr ⟨root, List.mem_cons_self, hfound⟩)

theorem exists_lookup_of_componentsUnder {root : Path} {components : List Component}
    (h : componentsUnder s disk root = .ok components) : ∃ t, disk.lookup root = .ok t := by
  rw [componentsUnder] at h
  split at h
  · next t ht => exact ⟨t, ht⟩
  · cases h

/-- The components found under a root that is a directory are those of its visible templates. -/
theorem mem_found_directory_iff (hdisk : disk.top.WellFormed) {root : Path} {contents : Fields FileTree OsString}
    (hroot : disk.lookup root = .ok (.directory contents)) {c : Component} :
    c ∈ found s disk root ↔ ∃ p : Place, (p.name ≠ "" ∧ (FileTree.directory contents).HasFile (p.steps s) ∧
      ∀ step ∈ p.steps s, ¬ IsHidden step) ∧ p.component s root = c := by
  rw [found_of_componentsUnder (componentsUnder_eq hdisk hroot), List.mem_map]
  simp only [(enumerates_visible (disk.wellFormed_lookup hdisk hroot)).mem_iff]

end Index

/-! ### Names as they are displayed -/

/-- The bytes are those of a text. -/
def IsText (name : OsString) : Prop :=
  ∃ s, name = OsString.ofText s

theorem isText_iff {name : OsString} : IsText name ↔ OsString.ofText name.display = name := by
  constructor
  · rintro ⟨s, rfl⟩
    rw [OsString.display_ofText]
  · intro h
    exact ⟨_, h.symm⟩

theorem isFileName_display {name : OsString} (h : IsFileName name) : IsFileName (OsString.ofText name.display) := by
  have hchars : name.display.toList = name.chars := String.toList_ofList
  have hplain {s : String} (hs : '\uFFFD' ∉ s.toList) (heq : OsString.ofText name.display = OsString.ofText s) :
      name = OsString.ofText s := by
    rw [← OsString.ofText_injective heq, hchars] at hs
    rw [← heq, OsString.ofText, hchars]
    exact (OsString.shows_chars name).eq_of_not_mem hs
  constructor
  · rw [ne_eq, OsString.ofText_eq_nil_iff, ← String.toList_eq_nil_iff, hchars, OsString.chars_eq_nil_iff]
    exact h.ne_nil
  · rw [OsString.slash_mem_ofText_iff, hchars]
    exact fun hslash => h.no_slash ((OsString.shows_chars name).slash_mem hslash)
  · exact fun heq => h.ne_here (hplain (s := ".") (by decide) heq)
  · exact fun heq => h.ne_up (hplain (s := "..") (by decide) heq)

theorem ofText_intercalate (names : List String) :
    OsString.ofText ("/".intercalate names) = [OsString.slash].intercalate (names.map OsString.ofText) := by
  induction names with
  | nil => rfl
  | cons name rest ih =>
    cases rest with
    | nil => rw [String.intercalate_singleton, List.map_singleton, List.intercalate_singleton]
    | cons next rest =>
      rw [String.intercalate_cons_cons, OsString.ofText_append, OsString.ofText_append, ih, List.map_cons, List.map_cons,
        List.map_cons, List.intercalate_cons_cons]
      rfl

/-! ### The template of a component -/

namespace Place

variable {s : Settings} {p : Place}

/-- The names of the directories on the way are texts, so that the path in the id says them exactly. -/
def IsExact (p : Place) : Prop :=
  ∀ name ∈ p.directories, IsText name

/-- The steps that the path in the id writes. -/
def shown (s : Settings) (p : Place) : List OsString :=
  p.directories.map (fun name => OsString.ofText name.display) ++ [p.file s]

theorem shown_eq_steps_iff : p.shown s = p.steps s ↔ p.IsExact := by
  rw [shown, steps, List.append_cancel_right_eq, IsExact]
  conv => enter [1, 2]; rw [← List.map_id p.directories]
  simp only [isText_iff]
  exact List.map_inj_left

theorem isFileName_shown (h : ∀ step ∈ p.steps s, IsFileName step) : ∀ step ∈ p.shown s, IsFileName step := by
  rw [steps, List.forall_mem_append] at h
  rw [shown, List.forall_mem_append, List.forall_mem_map]
  exact ⟨fun name hname => isFileName_display (h.1 name hname), h.2⟩

theorem join_relative (root : Path) (h : ∀ step ∈ p.steps s, IsFileName step) :
    root.join ⟨p.relative s⟩ = FileTree.pathOf root (p.shown s) := by
  have hbytes : OsString.ofText (p.relative s) = [OsString.slash].intercalate (p.shown s) := by
    rw [relative, ofText_intercalate, List.map_append, List.map_map]
    rfl
  rw [hbytes]
  exact Path.join_intercalate root (List.append_ne_nil_of_right_ne_nil _ (List.cons_ne_nil _ _)) (isFileName_shown h)

/-- The config is next to the template. -/
theorem exists_configPath {root : Path} (hroot : root.bytes ≠ []) (h : ∀ step ∈ p.steps s, IsFileName step) :
    ∃ directory : Path,
      (FileTree.pathOf root (p.steps s)).components = directory.components ++ [.name (p.file s)] ∧
      (p.component s root).configPath =
        directory.join ⟨OsString.ofText (p.name ++ ".config." ++ s.configExtension)⟩ := by
  rw [steps, List.forall_mem_append, List.forall_mem_singleton] at h
  have hpath : FileTree.pathOf root (p.steps s) = (FileTree.pathOf root p.directories).join ⟨p.file s⟩ := by
    rw [FileTree.pathOf, steps, List.foldl_append]
    rfl
  have hdirectory : (FileTree.pathOf root p.directories).bytes ≠ [] := by
    rw [ne_eq, ← Path.components_eq_nil_iff, FileTree.components_pathOf root h.1, List.append_eq_nil_iff,
      Path.components_eq_nil_iff]
    exact fun hnil => hroot hnil.1
  obtain ⟨directory, hcomponents, hother⟩ := Path.exists_withFileName_join hdirectory h.2
  refine ⟨directory, ?_, ?_⟩
  · rw [hpath, Path.components_join _ h.2, hcomponents]
  · rw [component, hpath, hother]

/-- If a directory on the way has a name that is no text, no root has the template at the path that is shown. -/
theorem components_ne_of_not_isExact (h : ∀ step ∈ p.steps s, IsFileName step) (hexact : ¬ p.IsExact) (root other : Path) :
    (other.join ⟨p.relative s⟩).components ≠ (FileTree.pathOf root (p.steps s)).components := by
  rw [join_relative other h, FileTree.components_pathOf other (isFileName_shown h), FileTree.components_pathOf root h]
  intro heq
  have hlength : ((p.shown s).map Path.Component.name).length = ((p.steps s).map Path.Component.name).length := by
    simp [shown, steps]
  have hsteps := (List.append_inj' heq hlength).2
  exact hexact (shown_eq_steps_iff.mp (List.map_injective_iff.mpr (fun _ _ => Path.Component.name.inj) hsteps))

end Place

/-- Where a component comes from that was found below the directory `root`, with the other roots `before` and `after`
it, and what the path in its id designates. -/
inductive Origin (s : Settings) (disk : Disk) (before : List Path) (root : Path) (after : List Path) (c : Component) : Prop
  | below (p : Place) (hname : p.name = c.name) (hne : c.name ≠ "") (hsteps : ∀ step ∈ p.steps s, IsFileName step)
    (hid : c.templateId = "@" ++ s.ns ++ "/" ++ p.relative s)
    (htemplate : disk.isFile (FileTree.pathOf root (p.steps s)) = true)
    (hconfig : ∃ directory : Path,
      (FileTree.pathOf root (p.steps s)).components = directory.components ++ [.name (p.file s)] ∧
      c.configPath = directory.join ⟨OsString.ofText (c.name ++ ".config." ++ s.configExtension)⟩)
    (hexact : p.IsExact → disk.search (before ++ root :: after) (p.relative s) =
        (disk.search before (p.relative s)).or (some (FileTree.pathOf root (p.steps s))) ∧
      (s.duplicates = .reject → disk.search before (p.relative s) = none))
    (hinexact : ¬ p.IsExact → ∀ file, disk.search (before ++ root :: after) (p.relative s) = some file →
      file.components ≠ (FileTree.pathOf root (p.steps s)).components)

/-- A root before that of a template has a file at the same path only if a component of the same name is found there. -/
theorem Place.exists_found_of_isFile {s : Settings} {disk : Disk} (hdisk : disk.top.WellFormed) {p : Place}
    (hname : p.name ≠ "") (hsteps : ∀ step ∈ p.steps s, IsFileName step) (hshown : ∀ step ∈ p.steps s, ¬ IsHidden step)
    {root : Path} {t : FileTree} (hroot : disk.lookup root = .ok t)
    (hfile : disk.isFile (FileTree.pathOf root (p.steps s)) = true) : p.component s root ∈ Index.found s disk root := by
  have hhas := (Disk.isFile_pathOf_iff hroot hsteps).mp hfile
  cases t with
  | directory contents => exact (Index.mem_found_directory_iff hdisk hroot).mpr ⟨p, ⟨hname, hhas, hshown⟩, rfl⟩
  | _ =>
    obtain ⟨step, rest, hcons⟩ := List.exists_cons_of_ne_nil
      (List.append_ne_nil_of_right_ne_nil p.directories (List.cons_ne_nil (p.file s) []))
    rw [steps, hcons] at hhas
    obtain ⟨file, hat, -⟩ := hhas
    cases hat

/-- Every component in an index was found under one of the roots. If that root is a directory, the id of the component
leads to its template and to no other one, with two exceptions: of two roots with a file at the same path the first one
is taken, and a name that is no text is shown, but not led to. The first one cannot occur if duplicates are rejected. The
config of a component is next to the template of the component. -/
theorem origin_of_build {s : Settings} {disk : Disk} (hdisk : disk.top.WellFormed) {roots : List Path} {index : Index}
    (h : Index.build s disk roots = .ok index) {name : String} {c : Component} (hc : Fields.get? name index = some c) :
    c.name = name ∧ ∃ before root after, roots = before ++ root :: after ∧ c ∈ Index.found s disk root ∧
      ∀ contents, disk.lookup root = .ok (.directory contents) → Origin s disk before root after c := by
  obtain ⟨hname, before, root, after, rfl, hfound, hroots, hreject⟩ := Index.exists_root_of_build h hc
  refine ⟨hname, before, root, after, rfl, hfound, fun contents hroot => ?_⟩
  obtain ⟨p, ⟨hne, hhas, hshown⟩, rfl⟩ := (Index.mem_found_directory_iff hdisk hroot).mp hfound
  have hsteps : ∀ step ∈ p.steps s, IsFileName step := by
    obtain ⟨file, hat, -⟩ := hhas
    exact (disk.wellFormed_lookup hdisk hroot).isFileName hat
  have htemplate := (Disk.isFile_pathOf_iff hroot hsteps).mpr hhas
  refine .below p rfl hne hsteps rfl htemplate (Place.exists_configPath (Disk.bytes_ne_nil_of_lookup hroot) hsteps) ?_ ?_
  · intro hexact
    have hjoin (other : Path) : other.join ⟨p.relative s⟩ = FileTree.pathOf other (p.steps s) := by
      rw [Place.join_relative other hsteps, Place.shown_eq_steps_iff.mpr hexact]
    constructor
    · rw [← hjoin] at htemplate ⊢
      rw [Disk.search_append, Disk.search_cons_of_isFile htemplate]
    · intro hpolicy
      rw [Disk.search_eq_none_iff]
      intro earlier hearlier
      by_contra hfile
      rw [Bool.not_eq_false, hjoin] at hfile
      obtain ⟨components, hunder⟩ := hroots earlier (List.mem_append_left _ hearlier)
      obtain ⟨u, hu⟩ := Index.exists_lookup_of_componentsUnder hunder
      exact hreject hpolicy earlier hearlier _ (Place.exists_found_of_isFile hdisk hne hsteps hshown hu hfile) hname
  · intro hexact file hfile
    obtain ⟨other, -, rfl⟩ := List.mem_map.mp (List.mem_of_find?_eq_some hfile)
    exact Place.components_ne_of_not_isExact hsteps hexact root other

/-- Of two templates at the same path the last one counts. -/
theorem origin_of_build_card :
    let card (content : String) : FileTree := .directory [("card.twig", .text content)]
    let disk : Disk := ⟨.directory [("a", card "A"), ("b", card "B")], []⟩
    let c : Component := ⟨"card", "@FrctlTwig/card.twig", ⟨"b/card.config.yml"⟩⟩
    disk.top.WellFormed ∧ Index.build {} disk [⟨"a"⟩, ⟨"b"⟩] = .ok [("card", c)] ∧
      ∃ before root after, [⟨"a"⟩, ⟨"b"⟩] = before ++ root :: after ∧ c ∈ Index.found {} disk root ∧
        ∀ contents, disk.lookup root = .ok (.directory contents) → Origin {} disk before root after c := by
  intro card disk c
  have hname : IsFileName (OsString.ofText "card.twig") := by decide
  have hcard (content : String) : (card content).WellFormed :=
    .directory (List.nodup_singleton _) (List.forall_mem_singleton.mpr hname)
      (List.forall_mem_singleton.mpr (.text content))
  have hdisk : disk.top.WellFormed := by
    refine .directory (by decide) ?_ ?_
    · exact List.forall_mem_cons.mpr ⟨by decide, List.forall_mem_singleton.mpr (by decide)⟩
    · exact List.forall_mem_cons.mpr ⟨hcard "A", List.forall_mem_singleton.mpr (hcard "B")⟩
  have hbuild : Index.build {} disk [⟨"a"⟩, ⟨"b"⟩] = .ok [("card", c)] := by decide +kernel
  have hget : Fields.get? "card" [("card", c)] = some c := rfl
  exact ⟨hdisk, hbuild, (origin_of_build hdisk hbuild hget).2⟩

/-- The id of the component from `b` leads to the template in `a`, and not to the one next to its config. The id of a
component in a directory whose name is no text leads nowhere. The id of a root that is itself a template has no path. -/
theorem search_of_two_roots :
    let card (content : String) : FileTree := .directory [("card.twig", .text content)]
    let unnamed : FileTree := .directory [([0xFF], .directory [("tile.twig", .text "C")])]
    let disk : Disk := ⟨.directory [("a", card "A"), ("b", card "B"), ("c", unnamed), ("hero.twig", .text "D")], []⟩
    let roots : List Path := [⟨"a"⟩, ⟨"b"⟩, ⟨"c"⟩, ⟨"hero.twig"⟩]
    Index.build {} disk roots = .ok [("card", ⟨"card", "@FrctlTwig/card.twig", ⟨"b/card.config.yml"⟩⟩),
        ("tile", ⟨"tile", "@FrctlTwig/\uFFFD/tile.twig",
          ⟨OsString.ofText "c/" ++ 0xFF :: OsString.ofText "/tile.config.yml"⟩⟩),
        ("hero", ⟨"hero", "@FrctlTwig/", ⟨"hero.config.yml"⟩⟩)] ∧
      disk.search roots "card.twig" = some ⟨"a/card.twig"⟩ ∧
      Path.parent? ⟨"a/card.twig"⟩ ≠ Path.parent? ⟨"b/card.config.yml"⟩ ∧
      disk.search roots "\uFFFD/tile.twig" = none := by
  decide +kernel

end Inclusion
