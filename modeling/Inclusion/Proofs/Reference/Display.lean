import Inclusion.Proofs.Reference
/-!
# Printing a reference and reading it again

Reading trims the ends of the whole text only, so white space before a separator stays. It stands at the end of the
printed reference if what followed the separator was dropped, and there the next reading takes it off: printed and read
again, a reference loses the white space at its end and nothing else (`parse_display`).
-/

namespace Inclusion

namespace Reference

/-! ### What a text is cut into -/

theorem HasSeparator.mono {cs ds : List Char} (h : HasSeparator cs) (hwithin : cs <:+: ds) : HasSeparator ds :=
  List.IsInfix.trans h hwithin

/-- The first separator is found where it stands, so it does not begin in what is before it. -/
theorem not_hasSeparator_splitSeparator (cs : List Char) : ¬ HasSeparator (splitSeparator cs).1 ∧
    ((splitSeparator cs).2.isSome → ¬ HasSeparator ((splitSeparator cs).1 ++ ['-'])) := by
  fun_induction splitSeparator cs with
  | case1 => decide
  | case2 rest =>
    dsimp only
    exact ⟨by decide, fun _ => by decide⟩
  | case3 c rest hc before after heq ih =>
    rw [heq] at ih
    have happend := append_splitSeparator rest
    rw [heq] at happend
    dsimp only at ih happend ⊢
    have hhead {ds : List Char} (hds : ds <+: rest) : ¬ (c = '-' ∧ ds.head? = some '-') := by
      rintro ⟨rfl, hdash⟩
      obtain ⟨others, rfl⟩ := List.head?_eq_some_iff.mp hdash
      obtain ⟨more, rfl⟩ := hds
      exact hc (others ++ more) rfl rfl
    constructor
    · rw [hasSeparator_cons_iff, not_or]
      exact ⟨hhead ⟨_, happend⟩, ih.1⟩
    · intro hafter
      rw [List.cons_append, hasSeparator_cons_iff, not_or]
      refine ⟨hhead ?_, ih.2 hafter⟩
      obtain ⟨after, rfl⟩ := Option.isSome_iff_exists.mp hafter
      exact ⟨'-' :: after, by simpa using happend⟩

theorem splitSeparator_append {cs : List Char} (h : ¬ HasSeparator (cs ++ ['-'])) (rest : List Char) :
    splitSeparator (cs ++ '-' :: '-' :: rest) = (cs, some rest) := by
  induction cs with
  | nil => rfl
  | cons c cs ih =>
    rw [List.cons_append, hasSeparator_cons_iff, not_or] at h
    rw [List.cons_append, splitSeparator.eq_3, ih h.2]
    rintro others rfl hothers
    apply h.1
    refine ⟨rfl, ?_⟩
    cases cs with
    | nil => rfl
    | cons d cs => exact congrArg List.head? hothers

/-! ### References that were read -/

/-- The variant that a text after the first separator names. -/
def variant? (rest : List Char) : Option String :=
  if (splitSeparator rest).1 = [] then none else some (String.ofList (splitSeparator rest).1)

theorem parse_eq (text : String) : parse text =
    let (component, after) := splitSeparator (trim text.toList)
    if component.dropWhile (· = '@') = [] then none
    else some ⟨String.ofList (component.dropWhile (· = '@')), after.bind variant?⟩ := by
  rw [parse]
  dsimp only
  split
  · next hempty => rw [if_pos hempty]
  · next hempty =>
    rw [if_neg hempty]
    congr 2
    split
    · next hafter => rw [hafter, Option.bind_none]
    · next rest hafter =>
      rw [hafter, Option.bind_some, variant?]
      split
      · next hnil => rw [if_pos hnil]
      · next hvariant => rw [if_neg hvariant]

/-- What is true of every reference that was read. -/
structure IsRead (r : Reference) : Prop where
  ne_empty : r.component ≠ ""
  no_sign : r.component.toList.head? ≠ some '@'
  no_separator : ¬ HasSeparator r.component.toList
  variant : ∀ v ∈ r.variant, v ≠ "" ∧ ¬ HasSeparator v.toList ∧ ¬ HasSeparator (r.component.toList ++ ['-'])

theorem head?_dropWhile_sign (cs : List Char) : (cs.dropWhile (· = '@')).head? ≠ some '@' := by
  intro h
  have hsign := List.head?_dropWhile_not (· = '@') cs
  rw [h] at hsign
  simp at hsign

theorem isRead_of_parse {text : String} {r : Reference} (h : parse text = some r) : IsRead r := by
  have hne := component_ne_empty_of_parse h
  obtain ⟨hfirst, hdash⟩ := not_hasSeparator_splitSeparator (trim text.toList)
  have hdrop := List.dropWhile_suffix (· = '@') (l := (splitSeparator (trim text.toList)).1)
  have hsign := head?_dropWhile_sign (splitSeparator (trim text.toList)).1
  rw [parse_eq] at h
  dsimp only at h
  split at h
  · cases h
  obtain rfl := Option.some.inj h
  rw [← String.toList_ofList (l := List.dropWhile _ _)] at hdrop hsign
  refine ⟨hne, hsign, fun hseparator => hfirst (hseparator.mono hdrop.isInfix), ?_⟩
  intro v hv
  obtain ⟨rest, hafter, hv⟩ := Option.bind_eq_some_iff.mp hv
  rw [variant?] at hv
  split at hv
  · cases hv
  next hvariant =>
  obtain rfl := Option.some.inj hv
  rw [ne_eq, ← String.toList_eq_nil_iff, String.toList_ofList]
  refine ⟨hvariant, (not_hasSeparator_splitSeparator rest).1, fun hseparator => ?_⟩
  -- The signs at the front are dropped, so a separator at the end would have been one before, too.
  apply hdash (by rw [hafter]; rfl)
  obtain ⟨front, hfront⟩ := hdrop
  rw [← hfront, List.append_assoc]
  exact hseparator.mono (List.suffix_append _ _).isInfix

/-! ### Reading what was printed -/

/-- The reference without the white space at its end, if there is still a name. -/
def trimmed? (r : Reference) : Option Reference :=
  match r.variant with
  | some v => some ⟨r.component, if trimEnd v.toList = [] then none else some (String.ofList (trimEnd v.toList))⟩
  | none => if trimEnd r.component.toList = [] then none else some ⟨String.ofList (trimEnd r.component.toList), none⟩

/-- The part of a reference that is printed last. -/
def lastPart (r : Reference) : String :=
  r.variant.getD r.component

theorem dropWhile_sign_of_head? {cs : List Char} (h : cs.head? ≠ some '@') : ('@' :: cs).dropWhile (· = '@') = cs := by
  rw [List.dropWhile_cons_of_pos (by decide)]
  cases cs with
  | nil => rfl
  | cons c cs =>
    rw [List.head?_cons, ne_eq, Option.some.injEq] at h
    exact List.dropWhile_cons_of_neg (by simpa using h)

theorem not_hasSeparator_trimEnd {cs : List Char} (h : ¬ HasSeparator cs) : ¬ HasSeparator (trimEnd cs) :=
  fun hseparator => h (hseparator.mono (trimEnd_isPrefix cs).isInfix)

theorem parse_display_none {component : String} (h : IsRead ⟨component, none⟩) :
    parse (display ⟨component, none⟩) = trimmed? ⟨component, none⟩ := by
  have htext : (display ⟨component, none⟩).toList = '@' :: component.toList := by simp [display]
  have hsplit := splitSeparator_eq_self_iff.mpr (not_hasSeparator_trimEnd h.no_separator)
  have hsign : (trimEnd component.toList).head? ≠ some '@' := by
    obtain ⟨after, hafter⟩ := trimEnd_isPrefix component.toList
    have hne := h.no_sign
    intro hhead
    obtain ⟨rest, hrest⟩ := List.head?_eq_some_iff.mp hhead
    rw [← hafter, hrest] at hne
    exact hne rfl
  rw [parse_eq, htext, trim_sign, splitSeparator_sign, hsplit]
  dsimp only [trimmed?]
  rw [dropWhile_sign_of_head? hsign]
  rfl

theorem parse_display_some {component v : String} (h : IsRead ⟨component, some v⟩) :
    parse (display ⟨component, some v⟩) = trimmed? ⟨component, some v⟩ := by
  have htext : (display ⟨component, some v⟩).toList = '@' :: (component.toList ++ '-' :: '-' :: v.toList) := by
    simp [display]
  have hdash : isSpace '-' = false := by decide
  have htrim : trimEnd (component.toList ++ '-' :: '-' :: v.toList) =
      component.toList ++ '-' :: '-' :: trimEnd v.toList := by
    have hcons := trimEnd_append_cons hdash (component.toList ++ ['-']) v.toList
    simpa using hcons
  obtain ⟨-, hseparator, hcomponent⟩ := h.variant v rfl
  have hvariant : variant? (trimEnd v.toList) =
      if trimEnd v.toList = [] then none else some (String.ofList (trimEnd v.toList)) := by
    rw [variant?, splitSeparator_eq_self_iff.mpr (not_hasSeparator_trimEnd hseparator)]
  have hname : component.toList ≠ [] := by
    rw [ne_eq, String.toList_eq_nil_iff]
    exact h.ne_empty
  rw [parse_eq, htext, trim_sign, htrim, splitSeparator_sign, splitSeparator_append hcomponent]
  dsimp only [trimmed?]
  rw [dropWhile_sign_of_head? h.no_sign, if_neg hname, String.ofList_toList, Option.bind_some, hvariant]

theorem trimmed?_eq_some_iff {r : Reference} (h : IsRead r) :
    r.trimmed? = some r ↔ ∀ c ∈ r.lastPart.toList.getLast?, isSpace c = false := by
  have hkeep (s : String) : String.ofList (trimEnd s.toList) = s ↔ ∀ c ∈ s.toList.getLast?, isSpace c = false := by
    rw [← trimEnd_eq_self_iff, ← String.toList_inj, String.toList_ofList]
  obtain ⟨component, variant⟩ := r
  cases variant with
  | none =>
    have hne := h.ne_empty
    rw [lastPart, Option.getD_none, ← hkeep, trimmed?]
    dsimp only
    split
    · next hempty =>
      rw [hempty]
      refine iff_of_false (by simp) fun heq => hne heq.symm
    · simp
  | some v =>
    have hne := (h.variant v rfl).1
    rw [lastPart, Option.getD_some, ← hkeep, trimmed?]
    dsimp only
    split
    · next hempty =>
      rw [hempty]
      exact iff_of_false (by simp) fun heq => hne heq.symm
    · simp

/-- A reference that is printed and read again loses the white space at its end, a name that is nothing else altogether. So
the same reference comes back exactly if there is no white space at its end. -/
theorem parse_display {text : String} {r : Reference} (h : parse text = some r) :
    parse r.display = r.trimmed? ∧
      (parse r.display = some r ↔ ∀ c ∈ r.lastPart.toList.getLast?, isSpace c = false) := by
  have hread := isRead_of_parse h
  have htrimmed : parse r.display = r.trimmed? := by
    obtain ⟨component, variant⟩ := r
    cases variant with
    | none => exact parse_display_none hread
    | some v => exact parse_display_some hread
  refine ⟨htrimmed, ?_⟩
  rw [htrimmed]
  exact trimmed?_eq_some_iff hread

/-- White space in front of a separator is kept if something follows. -/
theorem parse_display_card : parse "@@card ---wide--dark" = some ⟨"card ", some "-wide"⟩ ∧
    parse (display ⟨"card ", some "-wide"⟩) = some ⟨"card ", some "-wide"⟩ := by
  have hparse : parse "@@card ---wide--dark" = some ⟨"card ", some "-wide"⟩ := by decide +kernel
  have hlast : (lastPart ⟨"card ", some "-wide"⟩).toList.getLast? = some 'e' := by decide +kernel
  refine ⟨hparse, (parse_display hparse).2.mpr ?_⟩
  rw [hlast]
  rintro c ⟨⟩
  decide

/-- It is lost if nothing follows. -/
theorem parse_display_blank : ¬ ∀ (text : String) (r : Reference), parse text = some r → parse r.display = some r := by
  intro h
  have hparse : parse "card --" = some ⟨"card ", none⟩ := by decide +kernel
  have hdisplay : parse (display ⟨"card ", none⟩) = some ⟨"card", none⟩ := by decide +kernel
  have hsame := h _ _ hparse
  rw [hdisplay] at hsame
  exact absurd hsame (by decide)

end Reference

end Inclusion
