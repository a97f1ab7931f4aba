import Inclusion.Reference
/-!
# Names that a reference reads back

A reference is trimmed, cut at its separators and freed of the signs at its front. So `@` and a name are read as a
reference to the component of this name only if the name has nothing that is taken off (`IsPlain`). A name that is not
plain is read as another one, or as none at all (`isPlain_of_parse`).
-/

namespace Inclusion

/-! ### Trimming -/

theorem trimEnd_isPrefix (cs : List Char) : trimEnd cs <+: cs := by
  rw [← List.reverse_suffix, trimEnd, List.reverse_reverse]
  exact List.dropWhile_suffix isSpace

theorem trimEnd_eq_self_iff {cs : List Char} : trimEnd cs = cs ↔ ∀ c ∈ cs.getLast?, isSpace c = false := by
  rw [trimEnd, ← List.head?_reverse, List.reverse_eq_iff]
  cases cs.reverse with
  | nil => simp
  | cons c rest =>
    rw [List.head?_cons]
    cases hc : isSpace c with
    | false =>
      rw [List.dropWhile_cons_of_neg (by simp [hc])]
      simpa using hc
    | true =>
      have hlength := (List.dropWhile_suffix isSpace (l := rest)).length_le
      rw [List.dropWhile_cons_of_pos hc]
      refine iff_of_false (fun heq => ?_) (fun h => ?_)
      · rw [heq, List.length_cons] at hlength
        omega
      · rw [h c rfl] at hc
        cases hc

/-- Only what comes after a character that is no white space is trimmed at the end. -/
theorem trimEnd_append_cons {c : Char} (hc : isSpace c = false) (cs ds : List Char) :
    trimEnd (cs ++ c :: ds) = cs ++ c :: trimEnd ds := by
  have hreverse : (cs ++ c :: ds).reverse = ds.reverse ++ c :: cs.reverse := by simp
  have hstop : (c :: cs.reverse).dropWhile isSpace = c :: cs.reverse := List.dropWhile_cons_of_neg (by simp [hc])
  rw [trimEnd, trimEnd, hreverse, List.dropWhile_append, hstop]
  split
  · next hempty =>
    rw [List.isEmpty_iff.mp hempty]
    simp
  · simp

/-- The sign at the front is no blank, so only the end of what follows is trimmed. -/
theorem trim_sign (cs : List Char) : trim ('@' :: cs) = '@' :: trimEnd cs := by
  have hsign : isSpace '@' = false := by decide
  rw [trim, trimStart, List.dropWhile_cons_of_neg (by simp [hsign])]
  exact trimEnd_append_cons hsign [] cs

namespace Reference

/-! ### Cutting at a separator -/

/-- The text has two dashes that stand next to each other. -/
def HasSeparator (cs : List Char) : Prop :=
  ['-', '-'] <:+: cs

instance (cs : List Char) : Decidable (HasSeparator cs) :=
  inferInstanceAs (Decidable (_ <:+: _))

theorem hasSeparator_cons_iff {c : Char} {cs : List Char} :
    HasSeparator (c :: cs) ↔ (c = '-' ∧ cs.head? = some '-') ∨ HasSeparator cs := by
  rw [HasSeparator, List.infix_cons_iff, List.cons_prefix_cons, List.singleton_prefix_iff_head?_eq_some, eq_comm]
  rfl

/-- The text is what stands before its first separator, the separator, and what follows it. -/
theorem append_splitSeparator (cs : List Char) :
    (splitSeparator cs).1 ++ ((splitSeparator cs).2.map fun after => '-' :: '-' :: after).getD [] = cs := by
  fun_induction splitSeparator cs with
  | case1 => rfl
  | case2 rest => rfl
  | case3 c rest _ before after heq ih =>
    rw [heq] at ih
    exact congrArg (c :: ·) ih

theorem splitSeparator_eq_self_iff {cs : List Char} : splitSeparator cs = (cs, none) ↔ ¬ HasSeparator cs := by
  fun_induction splitSeparator cs with
  | case1 => simp [HasSeparator]
  | case2 rest =>
    have hseparator : HasSeparator ('-' :: '-' :: rest) := (List.prefix_append ['-', '-'] rest).isInfix
    simp [hseparator]
  | case3 c rest hc before after heq ih =>
    have hfirst : ¬ (c = '-' ∧ rest.head? = some '-') := by
      intro ⟨hdash, hhead⟩
      obtain ⟨others, rfl⟩ := List.head?_eq_some_iff.mp hhead
      exact hc others hdash rfl
    rw [heq] at ih
    rw [hasSeparator_cons_iff, not_or, ← ih]
    simp [hfirst]

/-- A text of which nothing is cut off has no separator. -/
theorem not_hasSeparator_of_length {cs : List Char} (h : cs.length ≤ (splitSeparator cs).1.length) :
    ¬ HasSeparator cs := by
  have happend := append_splitSeparator cs
  rw [← splitSeparator_eq_self_iff]
  cases hafter : (splitSeparator cs).2 with
  | none =>
    rw [hafter] at happend
    exact Prod.ext (by simpa using happend) hafter
  | some after =>
    rw [hafter] at happend
    have hlength := congrArg List.length happend
    simp at hlength
    omega

theorem splitSeparator_sign (cs : List Char) :
    splitSeparator ('@' :: cs) = ('@' :: (splitSeparator cs).1, (splitSeparator cs).2) := by
  rw [splitSeparator.eq_3]
  intro rest heq
  exact absurd heq (by decide)

/-! ### Plain names -/

/-- Nothing of the name is taken off when it is read after a sign. -/
structure IsPlain (name : String) : Prop where
  ne_empty : name ≠ ""
  no_sign : name.toList.head? ≠ some '@'
  no_separator : ¬ HasSeparator name.toList
  no_space : ∀ c ∈ name.toList.getLast?, isSpace c = false

theorem toList_component_of_parse {name : String} {r : Reference} (h : parse ("@" ++ name) = some r) :
    r.component.toList = (splitSeparator (trimEnd name.toList)).1.dropWhile (· = '@') := by
  have htext : ("@" ++ name).toList = '@' :: name.toList := by simp
  rw [parse, htext, trim_sign, splitSeparator_sign] at h
  dsimp only at h
  rw [List.dropWhile_cons_of_pos (by decide)] at h
  split at h
  · cases h
  · next hname =>
    cases h
    rw [String.toList_ofList]

theorem component_ne_empty_of_parse {text : String} {r : Reference} (h : parse text = some r) : r.component ≠ "" := by
  rw [parse] at h
  dsimp only at h
  split at h
  · cases h
  · next hname =>
    cases h
    rw [ne_eq, ← String.toList_eq_nil_iff, String.toList_ofList]
    exact hname

/-- The sign and a name are read as a reference to the component of the name only if the name is plain. -/
theorem isPlain_of_parse {name : String} {r : Reference} (h : parse ("@" ++ name) = some r)
    (hname : r.component = name) : IsPlain name := by
  have hne := component_ne_empty_of_parse h
  have hcomponent := toList_component_of_parse h
  rw [hname] at hne hcomponent
  -- Each step of reading can only shorten the text, so none of them takes anything off.
  have hdrop := List.dropWhile_suffix (· = '@') (l := (splitSeparator (trimEnd name.toList)).1)
  have hsplit := congrArg List.length (append_splitSeparator (trimEnd name.toList))
  have hlength := hdrop.length_le
  have hlength' := (trimEnd_isPrefix name.toList).length_le
  rw [List.length_append] at hsplit
  rw [← hcomponent] at hdrop hlength
  have htrim : trimEnd name.toList = name.toList := (trimEnd_isPrefix name.toList).eq_of_length (by omega)
  rw [htrim] at hdrop hlength hsplit
  refine ⟨hne, ?_, not_hasSeparator_of_length hlength, trimEnd_eq_self_iff.mp htrim⟩
  have hself : name.toList = (splitSeparator name.toList).1 := hdrop.eq_of_length (by omega)
  intro hhead
  obtain ⟨rest, hrest⟩ := List.head?_eq_some_iff.mp hhead
  rw [htrim, ← hself, hrest, List.dropWhile_cons_of_pos (by decide)] at hcomponent
  have hshort := (List.dropWhile_suffix (· = '@') (l := rest)).length_le
  rw [← hcomponent, List.length_cons] at hshort
  omega

theorem parse_of_isPlain {name : String} (h : IsPlain name) : parse ("@" ++ name) = some ⟨name, none⟩ := by
  have htext : ("@" ++ name).toList = '@' :: name.toList := by simp
  have htrim : trimEnd name.toList = name.toList := trimEnd_eq_self_iff.mpr h.no_space
  have hne : name.toList ≠ [] := by
    rw [ne_eq, String.toList_eq_nil_iff]
    exact h.ne_empty
  obtain ⟨c, rest, hname⟩ := List.exists_cons_of_ne_nil hne
  have hsign := h.no_sign
  rw [hname, List.head?_cons, ne_eq, Option.some.injEq] at hsign
  rw [parse, htext, trim_sign, htrim, splitSeparator_sign, splitSeparator_eq_self_iff.mpr h.no_separator]
  dsimp only
  rw [List.dropWhile_cons_of_pos (by decide), hname, List.dropWhile_cons_of_neg (by simpa using hsign), ← hname]
  split
  · next hnil => exact absurd hnil hne
  · rw [String.ofList_toList]

end Reference

end Inclusion
