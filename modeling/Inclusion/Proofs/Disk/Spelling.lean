import Inclusion.Component.Store
import Inclusion.Proofs.Disk.Path
/-!
# Spellings of a path

Two paths with equal components are two spellings of one path. Reading them gives the same with one exception: the
blank segments of a path, the empty ones and those with a single dot, are not components, but what they follow has to
be a directory. So a spelling that ends in a slash cannot be read when the path leads to a file.
-/

namespace Inclusion

open OsString (slash dot)

/-! ### What the components say -/

theorem mem_getLast?_cons {α : Type} {a b : α} {as : List α} (h : b ∈ as.getLast?) : b ∈ (a :: as).getLast? := by
  rw [List.getLast?_cons, h]
  rfl

theorem eq_or_getLast? {α : Type} {a b : α} {as : List α} (h : (a :: as).getLast? = some b) :
    as = [] ∧ a = b ∨ as.getLast? = some b := by
  cases as with
  | nil => exact .inl ⟨rfl, Option.some.inj h⟩
  | cons c as => exact .inr (by rwa [List.getLast?_cons_cons] at h)

namespace Path

/-- The components other than the one in front that says where the path starts. -/
def steps (p : Path) : List Component :=
  (segments p.bytes).filterMap Component.ofSegment

theorem ofSegment_eq_none_iff {s : OsString} : Component.ofSegment s = none ↔ s = [] ∨ s = [dot] := by
  rw [Component.ofSegment]
  split
  · simp_all
  · split <;> simp_all

theorem ne_of_ofSegment {s : OsString} {c : Component} (h : Component.ofSegment s = some c) : c ≠ .root ∧ c ≠ .here := by
  rw [Component.ofSegment] at h
  split at h
  · cases h
  · split at h <;> cases h <;> simp

/-- A segment that is neither a name nor a step up is blank. -/
theorem ofSegment_eq_none {s : OsString} (hname : ∀ name, Component.ofSegment s = some (.name name) → False)
    (hup : Component.ofSegment s = some .up → False) : Component.ofSegment s = none := by
  cases hc : Component.ofSegment s with
  | none => rfl
  | some c =>
    obtain ⟨hroot, hhere⟩ := ne_of_ofSegment hc
    cases c with
    | root => exact absurd rfl hroot
    | here => exact absurd rfl hhere
    | up => exact (hup hc).elim
    | name name => exact (hname name hc).elim

theorem ne_of_mem_steps {p : Path} {c : Component} (h : c ∈ p.steps) : c ≠ .root ∧ c ≠ .here := by
  obtain ⟨s, -, hs⟩ := List.mem_filterMap.mp h
  exact ne_of_ofSegment hs

/-- The component in front. -/
def front (p : Path) : List Component :=
  if p.isAbsolute then [.root] else if (segments p.bytes).head? = some [dot] then [.here] else []

theorem components_eq (p : Path) : p.components = p.front ++ p.steps := rfl

theorem isAbsolute_iff (p : Path) : p.isAbsolute = true ↔ p.components.head? = some .root := by
  rw [components_eq, front]
  cases p.isAbsolute with
  | true => simp
  | false =>
    rw [if_neg Bool.false_ne_true]
    refine iff_of_false Bool.false_ne_true fun h => ?_
    split at h
    · cases h
    · exact (ne_of_mem_steps (List.mem_of_mem_head? h)).1 rfl

theorem filter_components (p : Path) : p.components.filter (fun c => c ≠ .root ∧ c ≠ .here) = p.steps := by
  have hfront : p.front.filter (fun c => c ≠ .root ∧ c ≠ .here) = [] := by
    unfold front
    split
    · rfl
    · split <;> rfl
  rw [components_eq, List.filter_append, hfront, List.nil_append]
  exact List.filter_eq_self.mpr fun c hc => decide_eq_true (ne_of_mem_steps hc)

theorem components_eq_nil_iff {p : Path} : p.components = [] ↔ p.bytes = [] := by
  constructor
  · intro h
    by_contra htext
    obtain ⟨c, cs, hcs⟩ := List.exists_cons_of_ne_nil htext
    rw [components_eq, List.append_eq_nil_iff, front, steps, isAbsolute, hcs] at h
    obtain ⟨hfront, hsteps⟩ := h
    have hslash : c ≠ slash := by
      rintro rfl
      cases hfront
    obtain ⟨first, others, hsegments⟩ : ∃ first others, segments (c :: cs) = (c :: first) :: others := by
      rw [segments, if_neg hslash]
      cases segments cs with
      | nil => exact ⟨[], [], rfl⟩
      | cons first others => exact ⟨first, others, rfl⟩
    rw [hsegments] at hfront hsteps
    have hblank := List.filterMap_eq_nil_iff.mp hsteps (c :: first) List.mem_cons_self
    cases ofSegment_eq_none_iff.mp hblank with
    | inl hnil => cases hnil
    | inr hdot => simp [hdot, hslash] at hfront
  · intro h
    simp [components, isAbsolute, h, segments, Component.ofSegment]

/-- The last segment is no step. -/
def EndsBlank (p : Path) : Prop :=
  ∀ s ∈ (segments p.bytes).getLast?, Component.ofSegment s = none

end Path

/-! ### The tree at the end of the steps -/

namespace FileTree

/-- What steps lead to from a tree, with the directories above it. -/
def follow : (steps : List Path.Component) → (above : List FileTree) → FileTree → Except AccessError FileTree
  | [], _, t => .ok t
  | step :: rest, above, .directory entries =>
    match step with
    | .name s =>
      match Fields.get? s entries with
      | some t => follow rest (.directory entries :: above) t
      | none => .error .notFound
    | .up =>
      match above with
      | [] => follow rest [] (.directory entries)
      | up :: above => follow rest above up
    | _ => follow rest above (.directory entries)
  | _ :: _, _, _ => .error .notADirectory

theorem follow_of_isFile {t : FileTree} (ht : t.IsFile) {steps : List Path.Component} (hsteps : steps ≠ [])
    (above : List FileTree) : follow steps above t = .error .notADirectory := by
  obtain ⟨step, rest, rfl⟩ := List.exists_cons_of_ne_nil hsteps
  cases t with
  | directory entries => cases ht
  | _ => rfl

theorem walk_eq_follow_or (segments : List OsString) (above : List FileTree) (t : FileTree) :
    walk segments above t = follow (segments.filterMap Path.Component.ofSegment) above t ∨
      walk segments above t = .error .notADirectory := by
  fun_induction walk segments above t with
  | case1 above t => exact .inl rfl
  | case2 segment rest above entries name hname t hget ih =>
    rw [List.filterMap_cons_some hname, follow, hget]
    exact ih
  | case3 segment rest above entries name hname hget =>
    left
    rw [List.filterMap_cons_some hname, follow, hget]
  | case4 segment rest entries hup ih =>
    rw [List.filterMap_cons_some hup, follow]
    exact ih
  | case5 segment rest entries hup up above ih =>
    rw [List.filterMap_cons_some hup, follow]
    exact ih
  | case6 segment rest above entries hname hup ih =>
    rw [List.filterMap_cons_none (Path.ofSegment_eq_none hname hup)]
    exact ih
  | case7 => exact .inr rfl

/-- If the last segment is a step, the blank ones do no harm. -/
theorem walk_eq_follow {segments : List OsString}
    (hlast : ∀ s ∈ segments.getLast?, Path.Component.ofSegment s ≠ none) (above : List FileTree) (t : FileTree) :
    walk segments above t = follow (segments.filterMap Path.Component.ofSegment) above t := by
  fun_induction walk segments above t with
  | case1 above t => rfl
  | case2 segment rest above entries name hname t hget ih =>
    rw [List.filterMap_cons_some hname, follow, hget]
    exact ih fun s hs => hlast s (mem_getLast?_cons hs)
  | case3 segment rest above entries name hname hget => rw [List.filterMap_cons_some hname, follow, hget]
  | case4 segment rest entries hup ih =>
    rw [List.filterMap_cons_some hup, follow]
    exact ih fun s hs => hlast s (mem_getLast?_cons hs)
  | case5 segment rest entries hup up above ih =>
    rw [List.filterMap_cons_some hup, follow]
    exact ih fun s hs => hlast s (mem_getLast?_cons hs)
  | case6 segment rest above entries hname hup ih =>
    rw [List.filterMap_cons_none (Path.ofSegment_eq_none hname hup)]
    exact ih fun s hs => hlast s (mem_getLast?_cons hs)
  | case7 above segment rest t ht =>
    have hfile : t.IsFile := by
      cases t with
      | directory entries => exact (ht entries rfl).elim
      | _ => trivial
    refine (follow_of_isFile hfile ?_ above).symm
    intro hnone
    have hmem := List.getLast_mem (List.cons_ne_nil segment rest)
    refine hlast _ (List.getLast?_eq_some_getLast (List.cons_ne_nil segment rest)) ?_
    exact List.filterMap_eq_nil_iff.mp hnone _ hmem

/-- If the last segment is blank, there is a directory. -/
theorem not_isFile_of_walk {segments : List OsString} {last : OsString} (hlast : segments.getLast? = some last)
    (hblank : Path.Component.ofSegment last = none) {above : List FileTree} {t found : FileTree}
    (h : walk segments above t = .ok found) : ¬ found.IsFile := by
  fun_induction walk segments above t with
  | case1 above t => cases hlast
  | case2 segment rest above entries name hname t hget ih =>
    cases eq_or_getLast? hlast with
    | inl heq => rw [← heq.2, hname] at hblank; cases hblank
    | inr hlast => exact ih hlast h
  | case3 => cases h
  | case4 segment rest entries hup ih =>
    cases eq_or_getLast? hlast with
    | inl heq => rw [← heq.2, hup] at hblank; cases hblank
    | inr hlast => exact ih hlast h
  | case5 segment rest entries hup up above ih =>
    cases eq_or_getLast? hlast with
    | inl heq => rw [← heq.2, hup] at hblank; cases hblank
    | inr hlast => exact ih hlast h
  | case6 segment rest above entries hname hup ih =>
    cases eq_or_getLast? hlast with
    | inl heq =>
      rw [heq.1] at h
      cases h
      exact id
    | inr hlast => exact ih hlast h
  | case7 => cases h

end FileTree

/-! ### Reading -/

namespace Disk

variable {d : Disk} {p q : Path}

/-- The segments from the top of the disk. -/
def segments (d : Disk) (p : Path) : List OsString :=
  (if p.isAbsolute then [] else d.current) ++ Path.segments p.bytes

theorem lookup_eq_walk (hp : p.components ≠ []) : d.lookup p = FileTree.walk (d.segments p) [] d.top := by
  have htext : ¬ p.bytes.isEmpty = true := by
    rwa [List.isEmpty_iff, ← Path.components_eq_nil_iff]
  rw [lookup, if_neg htext]
  rfl

theorem filterMap_segments (h : p.components = q.components) :
    (d.segments p).filterMap Path.Component.ofSegment = (d.segments q).filterMap Path.Component.ofSegment := by
  have habsolute : p.isAbsolute = q.isAbsolute := by
    rw [Bool.eq_iff_iff, Path.isAbsolute_iff, Path.isAbsolute_iff, h]
  have hsteps : p.steps = q.steps := by
    rw [← p.filter_components, ← q.filter_components, h]
  rw [segments, segments, List.filterMap_append, List.filterMap_append, habsolute]
  exact congrArg _ hsteps

theorem getLast?_segments (d : Disk) (p : Path) : (d.segments p).getLast? = (Path.segments p.bytes).getLast? := by
  rw [segments, List.getLast?_append_of_ne_nil _ (Path.segments_ne_nil _)]

theorem components_ne_nil_of_lookup {t : FileTree} (h : d.lookup p = .ok t) : p.components ≠ [] := by
  intro hp
  rw [lookup, Path.components_eq_nil_iff.mp hp] at h
  cases h

/-- What one spelling leads to, another one leads to as well, or it goes through a file. -/
theorem lookup_of_components (h : p.components = q.components) {t : FileTree} (hp : d.lookup p = .ok t) :
    d.lookup q = .ok t ∨ d.lookup q = .error .notADirectory := by
  have hne := components_ne_nil_of_lookup hp
  rw [lookup_eq_walk hne] at hp
  rw [lookup_eq_walk (h ▸ hne)]
  have hfollow := FileTree.walk_eq_follow_or (d.segments p) [] d.top
  rw [hp] at hfollow
  have hq := FileTree.walk_eq_follow_or (d.segments q) [] d.top
  rw [← filterMap_segments h] at hq
  cases hfollow with
  | inl hfollow => rwa [← hfollow] at hq
  | inr hfollow => cases hfollow

/-- A path that ends in a blank segment leads to a directory, or nowhere. -/
theorem not_isFile_of_endsBlank (h : p.EndsBlank) {t : FileTree} (hp : d.lookup p = .ok t) : ¬ t.IsFile := by
  obtain ⟨last, hlast⟩ : ∃ last, (Path.segments p.bytes).getLast? = some last :=
    ⟨_, List.getLast?_eq_some_getLast (Path.segments_ne_nil _)⟩
  have hblank := h last hlast
  rw [← d.getLast?_segments p] at hlast
  rw [lookup_eq_walk (components_ne_nil_of_lookup hp)] at hp
  exact FileTree.not_isFile_of_walk hlast hblank hp

theorem lookup_file_of_components (h : p.components = q.components) (hblank : q.EndsBlank → p.EndsBlank)
    {t : FileTree} (ht : t.IsFile) (hp : d.lookup p = .ok t) : d.lookup q = .ok t := by
  have hne := components_ne_nil_of_lookup hp
  have hlast : ∀ s ∈ (d.segments q).getLast?, Path.Component.ofSegment s ≠ none := by
    intro s hs hnone
    rw [getLast?_segments] at hs
    have hq : q.EndsBlank := by
      intro u hu
      cases hs.symm.trans hu
      exact hnone
    exact not_isFile_of_endsBlank (hblank hq) hp ht
  cases lookup_of_components h hp with
  | inl hq => exact hq
  | inr hq =>
    rw [lookup_eq_walk hne] at hp
    rw [lookup_eq_walk (h ▸ hne), FileTree.walk_eq_follow hlast, ← filterMap_segments h] at hq
    have hfollow := FileTree.walk_eq_follow_or (d.segments p) [] d.top
    rw [hp, hq] at hfollow
    cases hfollow with
    | inl h => cases h
    | inr h => cases h

theorem read_eq_ok_iff {content : String} : d.read p = .ok content ↔ d.lookup p = .ok (.text content) := by
  rw [read]
  split <;> simp_all

end Disk

namespace Config

variable {disk : Disk} {p q : Path} {config : Config}

theorem read_eq_ok_iff : read disk p = .ok config ↔
    ∃ content, disk.read p = .ok content ∧ decode (Format.ofPath p) content = some config := by
  rw [read]
  cases disk.read p with
  | error e => cases e <;> simp
  | ok content =>
    cases hdecode : decode (Format.ofPath p) content <;> simp [hdecode]

theorem ofPath_of_components (h : p.components = q.components) : Format.ofPath p = Format.ofPath q := by
  rw [Format.ofPath, Format.ofPath, Path.extension?, Path.extension?, Path.fileName?, Path.fileName?, h]

/-- A config that is read with one spelling is read with every spelling that does not go through its file. -/
theorem read_of_components (h : p.components = q.components) (hp : read disk p = .ok config) :
    read disk q = .ok config ∨ read disk q = .error (.unreadable q .notADirectory) := by
  obtain ⟨content, hcontent, hdecode⟩ := read_eq_ok_iff.mp hp
  cases Disk.lookup_of_components h (Disk.read_eq_ok_iff.mp hcontent) with
  | inl hq =>
    left
    exact read_eq_ok_iff.mpr ⟨content, Disk.read_eq_ok_iff.mpr hq, ofPath_of_components h ▸ hdecode⟩
  | inr hq =>
    right
    have hread : disk.read q = .error .notADirectory := by
      rw [Disk.read, hq]
    rw [read, hread]

theorem read_of_components_of_endsBlank (h : p.components = q.components) (hblank : q.EndsBlank → p.EndsBlank)
    (hp : read disk p = .ok config) : read disk q = .ok config := by
  obtain ⟨content, hcontent, hdecode⟩ := read_eq_ok_iff.mp hp
  have hfile : (FileTree.text content).IsFile := trivial
  have hq := Disk.lookup_file_of_components h hblank hfile (Disk.read_eq_ok_iff.mp hcontent)
  exact read_eq_ok_iff.mpr ⟨content, Disk.read_eq_ok_iff.mpr hq, ofPath_of_components h ▸ hdecode⟩

end Config

/-! ### The end of a path -/

namespace Path

theorem getLast?_segments_append {ds : OsString} (hds : slash ∉ ds) (cs : OsString) :
    ∃ cs', (segments (cs ++ ds)).getLast? = some (cs' ++ ds) := by
  induction cs with
  | nil => exact ⟨[], by rw [List.nil_append, segments_of_no_slash hds]; rfl⟩
  | cons c cs ih =>
    obtain ⟨cs', ih⟩ := ih
    rw [List.cons_append, segments]
    split
    · exact ⟨cs', mem_getLast?_cons ih⟩
    · cases hsegments : segments (cs ++ ds) with
      | nil => exact absurd hsegments (segments_ne_nil _)
      | cons first others =>
        rw [hsegments] at ih
        cases eq_or_getLast? ih with
        | inl h => exact ⟨c :: cs', by simp [h.1, h.2]⟩
        | inr h => exact ⟨cs', mem_getLast?_cons h⟩

/-- Whether a path ends in a blank segment can be seen from its end, if that holds more than dots. -/
theorem endsBlank_iff_of_suffix {p q : Path} {ds : OsString} (hds : ∃ c ∈ ds, c ≠ dot)
    (hp : ds <:+ p.bytes) (hq : ds <:+ q.bytes) : p.EndsBlank ↔ q.EndsBlank := by
  obtain ⟨before, hp⟩ := hp
  obtain ⟨before', hq⟩ := hq
  rw [EndsBlank, EndsBlank, ← hp, ← hq]
  by_cases hslash : slash ∈ ds
  · obtain ⟨ds₁, ds₂, rfl⟩ := List.append_of_mem hslash
    rw [← List.append_assoc, ← List.append_assoc, segments_append, segments_append,
      List.getLast?_append_of_ne_nil _ (segments_ne_nil ds₂), List.getLast?_append_of_ne_nil _ (segments_ne_nil ds₂)]
  · have hsolid (cs : OsString) : ¬ ∀ s ∈ (segments (cs ++ ds)).getLast?, Component.ofSegment s = none := by
      intro h
      obtain ⟨cs', hlast⟩ := getLast?_segments_append hslash cs
      obtain ⟨c, hc, hdot⟩ := hds
      have hmem : c ∈ cs' ++ ds := List.mem_append_right _ hc
      cases ofSegment_eq_none_iff.mp (h _ hlast) with
      | inl hnil => simp [hnil] at hmem
      | inr hsingle =>
        rw [hsingle, List.mem_singleton] at hmem
        exact hdot hmem
    exact iff_of_false (hsolid before) (hsolid before')

theorem suffix_join (p q : Path) : q.bytes <:+ (p.join q).bytes := by
  rw [join]
  split
  · exact List.suffix_refl _
  · split
    · exact List.suffix_append _ _
    · exact ⟨p.bytes ++ [slash], List.append_assoc _ _ _⟩

theorem suffix_withFileName (p : Path) (name : OsString) : name <:+ (p.withFileName name).bytes := by
  rw [withFileName]
  split
  · exact suffix_join _ ⟨name⟩
  · exact suffix_join _ ⟨name⟩

end Path

end Inclusion
