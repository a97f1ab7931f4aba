import Inclusion.Proofs.Disk.Tree
/-!
# The components of a path

Joining a file name to a path adds one component, whatever slashes and dots the path is written with. So the path at
the end of some steps has the components of the path it starts from, and then the steps.
-/

namespace Inclusion

open OsString (slash dot)

namespace Path

theorem segments_ne_nil (cs : OsString) : segments cs ≠ [] := by
  fun_induction segments cs <;> simp

theorem segments_append (cs ds : OsString) : segments (cs ++ slash :: ds) = segments cs ++ segments ds := by
  induction cs with
  | nil => simp [segments]
  | cons c cs ih =>
    rw [List.cons_append, segments, segments]
    split
    · rw [ih, List.cons_append]
    · rw [ih]
      cases hcs : segments cs with
      | nil => exact absurd hcs (segments_ne_nil cs)
      | cons first others => rfl

theorem segments_of_no_slash {cs : OsString} (h : slash ∉ cs) : segments cs = [cs] := by
  induction cs with
  | nil => rfl
  | cons c cs ih =>
    rw [List.mem_cons, not_or] at h
    rw [segments, if_neg (Ne.symm h.1), ih h.2]

theorem ofSegment_of_isFileName {name : OsString} (h : IsFileName name) :
    Component.ofSegment name = some (.name name) := by
  simp [Component.ofSegment, h.ne_nil, h.ne_here, h.ne_up]

theorem isAbsolute_of_isFileName {name : OsString} (h : IsFileName name) : isAbsolute ⟨name⟩ = false := by
  rw [isAbsolute, decide_eq_false_iff_not]
  intro hhead
  exact h.no_slash (List.mem_of_mem_head? hhead)

/-- A joined name stands after a slash, which the path may bring along. -/
theorem bytes_join {p : Path} (hp : p.bytes ≠ []) {name : OsString} (h : IsFileName name) :
    ∃ cs, (p.join ⟨name⟩).bytes = cs ++ slash :: name ∧
      (p.bytes = cs ++ [slash] ∨ p.bytes = cs ∧ cs ≠ []) := by
  obtain ⟨cs, c, hcs⟩ := (List.eq_nil_or_concat _).resolve_left hp
  rw [List.concat_eq_append] at hcs
  rw [join, isAbsolute_of_isFileName h, if_neg Bool.false_ne_true, hcs, List.getLast?_concat]
  by_cases hc : c = slash
  · refine ⟨cs, ?_, .inl (by rw [hc])⟩
    simp [hc]
  · refine ⟨cs ++ [c], ?_, .inr ⟨rfl, by simp⟩⟩
    simp [hc]

theorem components_join (p : Path) {name : OsString} (h : IsFileName name) :
    (p.join ⟨name⟩).components = p.components ++ [.name name] := by
  have hname : (segments name).filterMap Component.ofSegment = [.name name] := by
    rw [segments_of_no_slash h.no_slash, List.filterMap_cons_some (ofSegment_of_isFileName h), List.filterMap_nil]
  by_cases hp : p.bytes = []
  · have hjoin : p.join ⟨name⟩ = ⟨name⟩ := by
      rw [join, isAbsolute_of_isFileName h, if_neg Bool.false_ne_true, hp]
      simp
    have hempty : p.components = [] := by
      simp [components, isAbsolute, hp, segments, Component.ofSegment]
    have hfirst : (segments name).head? ≠ some [dot] := by
      rw [segments_of_no_slash h.no_slash, List.head?_cons]
      intro heq
      exact h.ne_here (Option.some.inj heq)
    rw [hjoin, hempty, components, isAbsolute_of_isFileName h, hname, if_neg hfirst]
    rfl
  · obtain ⟨cs, hjoin, htext⟩ := bytes_join hp h
    have hsegments : ∃ blank, segments p.bytes = segments cs ++ blank ∧
        blank.filterMap Component.ofSegment = [] ∧ (p.join ⟨name⟩).isAbsolute = p.isAbsolute := by
      rw [isAbsolute, isAbsolute, hjoin]
      cases htext with
      | inl htext => exact ⟨[[]], by rw [htext, segments_append]; rfl, rfl, by rw [htext]; cases cs <;> rfl⟩
      | inr htext =>
        obtain ⟨htext, hne⟩ := htext
        refine ⟨[], by rw [htext, List.append_nil], rfl, ?_⟩
        rw [htext, List.head?_append_of_ne_nil _ hne]
    obtain ⟨blank, hblank, hnone, habsolute⟩ := hsegments
    rw [components, components, habsolute, hjoin, segments_append, hblank, List.filterMap_append, List.filterMap_append,
      List.head?_append_of_ne_nil _ (segments_ne_nil cs), List.head?_append_of_ne_nil _ (segments_ne_nil cs), hname,
      hnone, List.append_nil, List.append_assoc]

end Path

namespace FileTree

theorem components_pathOf (root : Path) {steps : List OsString} (h : ∀ name ∈ steps, IsFileName name) :
    (pathOf root steps).components = root.components ++ steps.map .name := by
  induction steps generalizing root with
  | nil => simp [pathOf]
  | cons name steps ih =>
    obtain ⟨hname, hsteps⟩ := List.forall_mem_cons.mp h
    have hjoin := Path.components_join root hname
    have hrest := ih (root.join ⟨name⟩) hsteps
    rw [hjoin, List.append_assoc, List.singleton_append] at hrest
    exact hrest

/-- The names on the way to a tree are those of entries. -/
theorem WellFormed.isFileName {t : FileTree} (h : t.WellFormed) {steps : List OsString} {found : FileTree}
    (hat : t.at? steps = some found) : ∀ name ∈ steps, IsFileName name := by
  induction steps generalizing t with
  | nil => simp
  | cons name steps ih =>
    cases h with
    | text content => cases hat
    | bytes => cases hat
    | directory hkeys hnames h =>
      rw [at?] at hat
      obtain ⟨next, hnext, hrest⟩ := Option.bind_eq_some_iff.mp hat
      have hmem := Fields.mem_of_get? hnext
      exact List.forall_mem_cons.mpr ⟨hnames _ hmem, ih (h _ hmem) hrest⟩

end FileTree

end Inclusion
