import Inclusion.Proofs.Disk.Spelling
/-!
# What lies below a path

Steps that are joined to a path, one by one or at once, lead to what the steps lead to from the tree at the
path (`toOption_lookup_pathOf`). Here it does not matter with which slashes and dots the path is written. The file next
to the one that a path names is found by taking the last step back; what is taken off with it are blank segments only,
so all other steps stay (`exists_withFileName_join`).
-/

namespace Inclusion

open OsString (slash dot)

/-! ### Joining relative paths -/

namespace Path

theorem bytes_join_ne_nil {p : Path} {name : OsString} (h : IsFileName name) : (p.join ⟨name⟩).bytes ≠ [] := by
  intro hbytes
  have hcomponents := components_join p h
  rw [components_eq_nil_iff.mpr hbytes] at hcomponents
  simp at hcomponents

/-- What has more than one step is joined step by step. -/
theorem join_append_slash (p : Path) {name : OsString} (h : IsFileName name) {rest : OsString}
    (hrest : isAbsolute ⟨rest⟩ = false) : p.join ⟨name ++ [slash] ++ rest⟩ = (p.join ⟨name⟩).join ⟨rest⟩ := by
  have habsolute : isAbsolute ⟨name ++ [slash] ++ rest⟩ = isAbsolute ⟨name⟩ := by
    simp only [isAbsolute, List.append_assoc, List.head?_append_of_ne_nil _ h.ne_nil]
  have hlast (front : OsString) : (front ++ name).getLast?.all (· = slash) = false := by
    obtain ⟨cs, c, hcs⟩ := (List.eq_nil_or_concat _).resolve_left h.ne_nil
    have hc : c ≠ slash := by
      intro heq
      apply h.no_slash
      rw [hcs, heq]
      simp
    rw [List.getLast?_append_of_ne_nil _ h.ne_nil, hcs, List.concat_eq_append, List.getLast?_concat]
    simpa using hc
  have hname := isAbsolute_of_isFileName h
  have hjoin : ∃ front, p.join ⟨name⟩ = ⟨front ++ name⟩ ∧
      p.join ⟨name ++ [slash] ++ rest⟩ = ⟨front ++ (name ++ [slash] ++ rest)⟩ := by
    rw [join, join, habsolute, hname, if_neg Bool.false_ne_true, if_neg Bool.false_ne_true]
    split
    · exact ⟨p.bytes, rfl, rfl⟩
    · exact ⟨p.bytes ++ [slash], by simp, by simp⟩
  obtain ⟨front, hone, hboth⟩ := hjoin
  rw [hboth, hone, join, hrest, if_neg Bool.false_ne_true, hlast, if_neg Bool.false_ne_true]
  simp

theorem isAbsolute_intercalate {steps : List OsString} (h : ∀ name ∈ steps, IsFileName name) :
    isAbsolute ⟨[slash].intercalate steps⟩ = false := by
  match steps, h with
  | [], _ => rfl
  | [name], h =>
    rw [List.intercalate_singleton]
    exact isAbsolute_of_isFileName (h name List.mem_cons_self)
  | name :: next :: rest, h =>
    have hname := h name List.mem_cons_self
    rw [List.intercalate_cons_cons, isAbsolute, List.append_assoc, List.head?_append_of_ne_nil _ hname.ne_nil]
    exact isAbsolute_of_isFileName hname

/-- The steps can be joined at once. -/
theorem join_intercalate (p : Path) {steps : List OsString} (hne : steps ≠ []) (h : ∀ name ∈ steps, IsFileName name) :
    p.join ⟨[slash].intercalate steps⟩ = FileTree.pathOf p steps := by
  induction steps generalizing p with
  | nil => exact absurd rfl hne
  | cons name rest ih =>
    obtain ⟨hname, hrest⟩ := List.forall_mem_cons.mp h
    cases rest with
    | nil =>
      rw [List.intercalate_singleton]
      rfl
    | cons next rest =>
      rw [List.intercalate_cons_cons, join_append_slash p hname (isAbsolute_intercalate hrest)]
      exact ih (p.join ⟨name⟩) (List.cons_ne_nil _ _) hrest

end Path

/-! ### What the steps lead to -/

namespace FileTree

theorem at?_cons (name : OsString) (rest : List OsString) (t : FileTree) :
    at? (name :: rest) t = (at? [name] t).bind (at? rest) := by
  cases t with
  | directory entries =>
    rw [at?, at?, Option.bind_assoc]
    rfl
  | _ => rfl

/-- Segments that lead to the same tree whatever directories are above are walked after the others. -/
theorem walk_append {after : List OsString} {f : FileTree → Except AccessError FileTree}
    (hafter : ∀ above t, walk after above t = f t) (segments : List OsString) (above : List FileTree) (t : FileTree) :
    walk (segments ++ after) above t = (walk segments above t).bind f := by
  fun_induction walk segments above t with
  | case1 above t => exact hafter above t
  | case2 segment rest above entries step hname t hget ih =>
    simp only [List.cons_append, walk, hname, hget]
    exact ih
  | case3 segment rest above entries step hname hget =>
    simp only [List.cons_append, walk, hname, hget]
    rfl
  | case4 segment rest entries hup ih =>
    simp only [List.cons_append, walk, hup]
    exact ih
  | case5 segment rest entries hup up above ih =>
    simp only [List.cons_append, walk, hup]
    exact ih
  | case6 segment rest above entries hname hup ih =>
    simp only [List.cons_append, walk, Path.ofSegment_eq_none hname hup]
    exact ih
  | case7 above segment rest t ht =>
    cases t with
    | directory entries => exact (ht entries rfl).elim
    | _ => rfl

theorem toOption_walk_name {name : OsString} (h : IsFileName name) (segments : List OsString) (above : List FileTree)
    (t : FileTree) : (walk (segments ++ [name]) above t).toOption =
      (walk segments above t).toOption.bind (at? [name]) := by
  have hone (above : List FileTree) (t : FileTree) : walk [name] above t = walk [name] [] t := by
    cases t with
    | directory entries =>
      simp only [walk, Path.ofSegment_of_isFileName h]
    | _ => rfl
  have hat (t : FileTree) : (walk [name] [] t).toOption = at? [name] t := by
    cases t with
    | directory entries =>
      simp only [walk, Path.ofSegment_of_isFileName h, at?]
      cases Fields.get? name entries <;> rfl
    | _ => rfl
  rw [walk_append hone]
  cases walk segments above t with
  | ok found => exact hat found
  | error e => rfl

/-- Only a directory has entries, so that a blank segment before a name changes nothing. -/
theorem toOption_walk_blank (name : OsString) (segments : List OsString) (above : List FileTree) (t : FileTree) :
    (walk (segments ++ [[]]) above t).toOption.bind (at? [name]) =
      (walk segments above t).toOption.bind (at? [name]) := by
  have hblank (above : List FileTree) (t : FileTree) : walk [[]] above t = walk [[]] [] t := by
    cases t <;> rfl
  rw [walk_append hblank]
  cases walk segments above t with
  | ok found => cases found <;> rfl
  | error e => rfl

end FileTree

namespace Disk

theorem toOption_lookup_join (d : Disk) {p : Path} (hp : p.bytes ≠ []) {name : OsString} (h : IsFileName name) :
    (d.lookup (p.join ⟨name⟩)).toOption = (d.lookup p).toOption.bind (FileTree.at? [name]) := by
  have hcomponents := Path.components_join p h
  have hne : p.components ≠ [] := by
    rwa [ne_eq, Path.components_eq_nil_iff]
  have habsolute : (p.join ⟨name⟩).isAbsolute = p.isAbsolute := by
    rw [Bool.eq_iff_iff, Path.isAbsolute_iff, Path.isAbsolute_iff, hcomponents, List.head?_append_of_ne_nil _ hne]
  obtain ⟨cs, hjoin, htext⟩ := Path.bytes_join hp h
  have hsegments : (p.join ⟨name⟩).bytes = cs ++ slash :: name := hjoin
  rw [lookup_eq_walk hne, lookup_eq_walk (by simp [hcomponents]), segments, segments, habsolute, hsegments,
    Path.segments_append, Path.segments_of_no_slash h.no_slash, ← List.append_assoc, FileTree.toOption_walk_name h]
  cases htext with
  | inl htext =>
    rw [htext, Path.segments_append, ← List.append_assoc]
    exact (FileTree.toOption_walk_blank name _ _ _).symm
  | inr htext => rw [htext.1]

/-- What steps by name lead to from a path. -/
theorem toOption_lookup_pathOf (d : Disk) {p : Path} (hp : p.bytes ≠ []) {steps : List OsString}
    (h : ∀ name ∈ steps, IsFileName name) :
    (d.lookup (FileTree.pathOf p steps)).toOption = (d.lookup p).toOption.bind (FileTree.at? steps) := by
  induction steps generalizing p with
  | nil => exact (Option.bind_fun_some _).symm
  | cons name rest ih =>
    obtain ⟨hname, hrest⟩ := List.forall_mem_cons.mp h
    have hjoin := ih (Path.bytes_join_ne_nil (p := p) hname) hrest
    rw [toOption_lookup_join d hp hname, Option.bind_assoc] at hjoin
    refine hjoin.trans (congrArg _ (funext fun t => ?_))
    exact (FileTree.at?_cons name rest t).symm

end Disk

/-! ### The path next to another one -/

namespace Path

theorem front_cases (p : Path) : p.front = [.root] ∨ p.front = [.here] ∨ p.front = [] := by
  rw [front]
  split
  · exact .inl rfl
  · split
    · exact .inr (.inl rfl)
    · exact .inr (.inr rfl)

theorem frontLength_eq (p : Path) : p.frontLength = p.front.length := by
  rw [frontLength, components_eq]
  obtain hroot | hhere | hnone := p.front_cases
  · rw [hroot]
    rfl
  · rw [hhere]
    rfl
  · rw [hnone, List.nil_append]
    split
    · next hroot => exact absurd rfl (ne_of_mem_steps (List.mem_of_mem_head? hroot)).1
    · next hhere => exact absurd rfl (ne_of_mem_steps (List.mem_of_mem_head? hhere)).2
    · rfl

theorem frontLength_of_components {p q : Path} (h : p.components = q.components) : p.frontLength = q.frontLength := by
  rw [frontLength, frontLength, h]

theorem frontLength_le_one (p : Path) : p.frontLength ≤ 1 := by
  rw [frontLength]
  split <;> omega

theorem components_append_slash {cs : OsString} (h : cs ≠ []) :
    components ⟨(cs ++ [slash])⟩ = components ⟨cs⟩ := by
  rw [components, components, isAbsolute, isAbsolute]
  dsimp only
  rw [segments_append, List.head?_append_of_ne_nil _ h, List.head?_append_of_ne_nil _ (segments_ne_nil cs),
    List.filterMap_append]
  exact congrArg _ (List.append_nil _)

theorem components_append_slash_dot (cs : OsString) :
    components ⟨(cs ++ [slash, dot])⟩ = components ⟨(cs ++ [slash])⟩ := by
  have hfirst : (cs ++ [slash, dot]).head? = (cs ++ [slash]).head? := by
    cases cs <;> rfl
  rw [components, components, isAbsolute, isAbsolute]
  dsimp only
  rw [hfirst, segments_append, segments_append, List.head?_append_of_ne_nil _ (segments_ne_nil cs),
    List.head?_append_of_ne_nil _ (segments_ne_nil cs), List.filterMap_append, List.filterMap_append]
  rfl

/-- A dot that counts as blank follows a slash. The front of a path that does not only consist of the dot ends in one. -/
theorem head?_of_blank_dot {rest : OsString} (h : rest.length = frontLength ⟨(dot :: rest).reverse⟩) :
    rest.head? = some slash := by
  have hle := frontLength_le_one ⟨(dot :: rest).reverse⟩
  rw [← h] at hle
  match rest, hle with
  | [], _ => cases h
  | [c], _ =>
    by_contra hc
    have hslash : slash ∉ [c, dot] := by
      intro hmem
      obtain rfl | hmem := List.mem_cons.mp hmem
      · exact hc rfl
      · cases List.mem_singleton.mp hmem
    have hsegments : segments [c, dot] = [[c, dot]] := segments_of_no_slash hslash
    have hfront : front ⟨[c, dot]⟩ = [] := by
      rw [front, isAbsolute, hsegments]
      simpa using hc
    rw [frontLength_eq] at h
    have hlength : 1 = (front ⟨[c, dot]⟩).length := h
    rw [hfront] at hlength
    cases hlength

/-- Taking blank segments from the end of a path keeps its components. -/
theorem components_dropBlankEnd {kept : Nat} {cs : OsString} (h : kept = frontLength ⟨cs.reverse⟩) :
    components ⟨(dropBlankEnd kept cs).reverse⟩ = components ⟨cs.reverse⟩ := by
  fun_induction dropBlankEnd kept cs with
  | case1 => rfl
  | case2 => rfl
  | case3 rest hlength ih =>
    have hne : rest.reverse ≠ [] := by
      intro hnil
      rw [List.reverse_eq_nil_iff.mp hnil] at h hlength
      subst h
      exact hlength Nat.zero_lt_one
    have hslash := components_append_slash hne
    rw [List.reverse_cons] at h ⊢
    rw [ih (h.trans (frontLength_of_components hslash)), hslash]
  | case4 rest hlength hblank hslash ih =>
    have hhead : rest.head? = some slash := by
      rw [Bool.or_eq_true, decide_eq_true_eq, decide_eq_true_eq] at hblank
      cases hblank with
      | inl hlength => exact head?_of_blank_dot (hlength.trans h)
      | inr hhead => exact hhead
    obtain ⟨before, rfl⟩ := List.head?_eq_some_iff.mp hhead
    have hdot := components_append_slash_dot before.reverse
    rw [List.reverse_cons, List.reverse_cons, List.append_assoc] at h ⊢
    rw [List.reverse_cons] at ih
    exact (ih (h.trans (frontLength_of_components hdot))).trans hdot.symm
  | case5 => rfl
  | case6 => rfl

theorem dropBlankEnd_of_isFileName {name : OsString} (h : IsFileName name) {kept : Nat} (hkept : kept ≤ 1)
    (rest : OsString) :
    dropBlankEnd kept (name.reverse ++ slash :: rest) = name.reverse ++ slash :: rest := by
  obtain ⟨front, c, hname⟩ := (List.eq_nil_or_concat _).resolve_left h.ne_nil
  rw [List.concat_eq_append] at hname
  have hslash := h.no_slash
  have hhere := h.ne_here
  rw [hname] at hslash hhere
  have hc : c ≠ slash := by
    intro heq
    simp [heq] at hslash
  rw [hname, List.reverse_append, List.reverse_singleton, List.singleton_append, List.cons_append, dropBlankEnd,
    if_neg hc, ite_eq_left_iff]
  intro hlength
  rw [ite_eq_right_iff]
  intro hdot
  have hfront : front ≠ [] := by
    intro hnil
    simp [hnil, hdot] at hhere
  obtain ⟨front, d, rfl⟩ := (List.eq_nil_or_concat _).resolve_left hfront
  have hd : d ≠ slash := by
    intro heq
    simp [heq] at hslash
  rw [if_neg]
  simp only [List.concat_eq_append, List.reverse_append, List.reverse_singleton, List.cons_append,
    List.length_cons, List.length_append, List.head?_cons, Bool.or_eq_true, decide_eq_true_eq, Option.some.injEq, hd,
    or_false]
  omega

/-- Taking the last step back gives a path with the components from before. -/
theorem components_parent?_join {p : Path} (hp : p.bytes ≠ []) {name : OsString} (h : IsFileName name) :
    ∃ q, (p.join ⟨name⟩).parent? = some q ∧ q.components = p.components := by
  have hcomponents := components_join p h
  have hne : p.components ≠ [] := by
    rwa [ne_eq, components_eq_nil_iff]
  obtain ⟨cs, hjoin, htext⟩ := bytes_join hp h
  have hslash : components ⟨(cs ++ [slash])⟩ = p.components := by
    cases htext with
    | inl htext => rw [← htext]
    | inr htext => rw [components_append_slash htext.2, ← htext.1]
  have hkept : (p.join ⟨name⟩).frontLength = frontLength ⟨(slash :: cs.reverse).reverse⟩ := by
    rw [List.reverse_cons, List.reverse_reverse, frontLength_of_components hslash, frontLength, frontLength, hcomponents,
      List.head?_append_of_ne_nil _ hne]
  have hcut : (dropBlankEnd (p.join ⟨name⟩).frontLength (p.join ⟨name⟩).bytes.reverse).drop name.length =
      slash :: cs.reverse := by
    rw [hjoin, List.reverse_append, List.reverse_cons, List.append_assoc, List.singleton_append,
      dropBlankEnd_of_isFileName h (frontLength_le_one _)]
    exact List.drop_left' List.length_reverse
  refine ⟨⟨(dropBlankEnd (p.join ⟨name⟩).frontLength (slash :: cs.reverse)).reverse⟩, ?_, ?_⟩
  · rw [parent?, hcomponents, List.getLast?_concat]
    dsimp only [Component.bytes]
    rw [hcut]
  · rw [components_dropBlankEnd hkept, List.reverse_cons, List.reverse_reverse, hslash]

/-- Other files in the place of the one that a path names are in the same directory. -/
theorem exists_withFileName_join {p : Path} (hp : p.bytes ≠ []) {name : OsString} (h : IsFileName name) :
    ∃ directory : Path, directory.components = p.components ∧
      ∀ other, (p.join ⟨name⟩).withFileName other = directory.join ⟨other⟩ := by
  obtain ⟨directory, hparent, hcomponents⟩ := components_parent?_join hp h
  have hfile : (p.join ⟨name⟩).fileName? = some name := by
    rw [fileName?, components_join p h, List.getLast?_concat]
  refine ⟨directory, hcomponents, fun other => ?_⟩
  rw [withFileName, hfile]
  dsimp only
  rw [hparent, Option.getD_some]

end Path

end Inclusion
