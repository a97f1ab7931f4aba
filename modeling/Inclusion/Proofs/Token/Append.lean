import Inclusion.Directive
import Inclusion.Proofs.Token.Pattern
/-!
# A blank between two texts

No token goes on over a blank, so the tokens of two texts with a blank between them are those of the first and those of
the second. A string or a comment that is still open at the end of the first text is different: it goes on until it is
closed, which it never is if the second text holds no quote and no number sign.
-/

namespace Inclusion

namespace Lexer

variable {c quote : Char} {cs ds rest : List Char}

/-! ### Strings and comments -/

theorem stringBody_length_le (quote : Char) (cs : List Char) : (stringBody quote cs).2 ≤ cs.length := by
  fun_induction stringBody quote cs <;> simp_all

theorem commentBody_length_le (cs : List Char) : (commentBody cs).2 ≤ cs.length := by
  fun_induction commentBody cs <;> simp_all

/-- A string that is closed does not depend on what follows. -/
theorem stringBody_append (hquote : quote ≠ '\\') (h : (stringBody quote cs).1.isSome) (ds : List Char) :
    stringBody quote (cs ++ ds) = stringBody quote cs := by
  obtain ⟨contents, hcontents⟩ := Option.isSome_iff_exists.mp h
  have hbody : stringBody quote cs = (some contents, (stringBody quote cs).2) := Prod.ext hcontents rfl
  obtain ⟨body, hitems, rest, hcs, hvalue, hlength⟩ := (stringBody_eq_some_iff hquote).mp hbody
  rw [hbody, stringBody_eq_some_iff hquote]
  exact ⟨body, hitems, rest ++ ds, by simp [hcs], hvalue, hlength⟩

theorem stringBody_eq_none (h : quote ∉ cs) : (stringBody quote cs).1 = none := by
  fun_induction stringBody quote cs with
  | case1 => rfl
  | case2 => rfl
  | case3 c rest hc contents n hrest ih =>
    rw [hrest] at ih
    simp only [List.mem_cons, not_or] at h
    rw [Option.map_eq_none_iff]
    exact ih h.2.2
  | case4 => rfl
  | case5 => exact absurd List.mem_cons_self h
  | case6 c rest hescape hlone hc contents n hrest ih =>
    rw [hrest] at ih
    rw [Option.map_eq_none_iff]
    exact ih fun hmem => h (List.mem_cons_of_mem c hmem)

/-- A string that is still open is not closed by a text without its quote. -/
theorem stringBody_append_eq_none (h : (stringBody quote cs).1 = none) (hds : quote ∉ ds) :
    (stringBody quote (cs ++ ds)).1 = none := by
  fun_induction stringBody quote cs with
  | case1 => exact stringBody_eq_none hds
  | case2 => rfl
  | case3 c rest hc contents n hrest ih =>
    rw [Option.map_eq_none_iff] at h
    rw [List.cons_append, List.cons_append, stringBody_backslash quote hc, Option.map_eq_none_iff]
    exact ih (hrest ▸ h)
  | case4 =>
    cases ds with
    | nil => rfl
    | cons d ds =>
      rw [List.mem_cons, not_or] at hds
      rw [List.singleton_append, stringBody]
      split
      · rfl
      · rw [Option.map_eq_none_iff]
        exact stringBody_eq_none hds.2
  | case5 => cases h
  | case6 c rest hescape hlone hc contents n hrest ih =>
    rw [Option.map_eq_none_iff] at h
    rw [List.cons_append, stringBody_plain (ne_backslash_of_plain hescape hlone) hc, Option.map_eq_none_iff]
    exact ih (hrest ▸ h)

/-- A comment that is closed does not depend on what follows. -/
theorem commentBody_append (h : (commentBody cs).1 = true) (ds : List Char) : commentBody (cs ++ ds) = commentBody cs := by
  have hbody : commentBody cs = (true, (commentBody cs).2) := Prod.ext h rfl
  obtain ⟨body, hitems, rest, hcs, hlength⟩ := commentBody_eq_true_iff.mp hbody
  rw [hbody, commentBody_eq_true_iff]
  exact ⟨body, hitems, rest ++ ds, by simp [hcs], hlength⟩

theorem commentBody_eq_false (h : '#' ∉ cs) : (commentBody cs).1 = false := by
  induction cs with
  | nil => rfl
  | cons c cs ih =>
    rw [List.mem_cons, not_or] at h
    rw [commentBody_plain (Ne.symm h.1)]
    exact ih h.2

/-- A comment that is still open is not closed by a text without number signs, if that begins with a blank. -/
theorem commentBody_append_eq_false (h : (commentBody cs).1 = false) (hds : '#' ∉ ds) :
    (commentBody (cs ++ ' ' :: ds)).1 = false := by
  fun_induction commentBody cs with
  | case1 =>
    rw [List.nil_append, commentBody_plain (by decide)]
    exact commentBody_eq_false hds
  | case2 => cases h
  | case3 c rest hc closed n hrest ih =>
    rw [List.cons_append, List.cons_append, commentBody_hash hc]
    exact ih (hrest ▸ h)
  | case4 =>
    rw [List.singleton_append, commentBody_hash (by decide)]
    exact commentBody_eq_false hds
  | case5 c rest hclose hitem hlone closed n hrest ih =>
    rw [List.cons_append, commentBody_plain (ne_hash_of_plain hclose hitem hlone)]
    exact ih (hrest ▸ h)

/-! ### Pieces -/

theorem munch_length_le (c : Char) (rest : List Char) : (munch c rest).2 ≤ rest.length := by
  have htake (p : Char → Bool) (cs : List Char) : (cs.takeWhile p).length ≤ cs.length :=
    (List.takeWhile_sublist p).length_le
  have hfollows {n : Nat} {cs : List Char} (h : rest.take n = cs) : cs.length ≤ rest.length :=
    h ▸ (List.take_prefix n rest).length_le
  unfold munch
  split
  · exact htake _ _
  split
  · exact htake _ _
  split
  · have htail := htake Char.isDigit rest
    dsimp only
    split
    · next more hdrop =>
      have hlength := congrArg List.length hdrop
      rw [List.length_drop, List.length_cons] at hlength
      have hplaces := htake Char.isDigit more
      split
      · exact htail
      · dsimp only
        omega
    · exact htail
  split
  · have hbody := stringBody_length_le '"' rest
    split <;> simp_all
  · have hbody := stringBody_length_le '\'' rest
    split <;> simp_all
  · split
    · simp
    · simp
    · simp
    · next body =>
      have hbody := commentBody_length_le body
      simpa using hbody
    · exact Nat.zero_le _
  · split
    · next hhead =>
      obtain ⟨rest, rfl⟩ := List.head?_eq_some_iff.mp hhead
      simp
    · exact Nat.zero_le _
  · split
    · next hsign => exact hfollows hsign
    · exact Nat.zero_le _
  · split
    · next hsign => exact hfollows hsign
    · exact Nat.zero_le _
  all_goals exact Nat.zero_le _

/-- The characters that close a string or a comment do not occur in the text. -/
structure ClosesNothing (cs : List Char) : Prop where
  double : '"' ∉ cs
  single : '\'' ∉ cs
  hash : '#' ∉ cs

theorem takeWhile_append_blank {p : Char → Bool} (hp : p ' ' = false) (cs ds : List Char) :
    (cs ++ ' ' :: ds).takeWhile p = cs.takeWhile p := by
  induction cs with
  | nil => exact List.takeWhile_cons_of_neg (by simp [hp])
  | cons c cs ih => rw [List.cons_append, List.takeWhile_cons, List.takeWhile_cons, ih]

/-- The sign of a closing is taken into it only if the closing follows at once. -/
theorem take_append_blank (rest ds : List Char) : (rest ++ ' ' :: ds).take 2 = ['%', '}'] ↔ rest.take 2 = ['%', '}'] := by
  match rest with
  | [] => simp
  | [c] => simp
  | c :: d :: rest => simp

/-- A blank is no part of a number. -/
theorem hasFraction_append_blank {more : List Char} :
    HasFraction (rest ++ ' ' :: ds) more ↔ ∃ before, HasFraction rest before ∧ more = before ++ ' ' :: ds := by
  have hdigit : Char.isDigit ' ' = false := by decide
  have hlength : (rest.takeWhile Char.isDigit).length ≤ rest.length := (List.takeWhile_sublist _).length_le
  unfold HasFraction
  rw [takeWhile_append_blank hdigit, List.drop_append_of_le_length hlength]
  constructor
  · rintro ⟨hdot, hplaces⟩
    obtain ⟨before, hbefore, rfl⟩ : ∃ before, rest.drop (rest.takeWhile Char.isDigit).length = '.' :: before ∧
        more = before ++ ' ' :: ds := by
      cases hdrop : rest.drop (rest.takeWhile Char.isDigit).length with
      | nil =>
        rw [hdrop] at hdot
        cases hdot
      | cons d before =>
        rw [hdrop, List.cons_append] at hdot
        obtain ⟨rfl, rfl⟩ := List.cons.inj hdot
        exact ⟨before, rfl, rfl⟩
    rw [takeWhile_append_blank hdigit] at hplaces
    exact ⟨before, ⟨hbefore, hplaces⟩, rfl⟩
  · rintro ⟨before, ⟨hdot, hplaces⟩, rfl⟩
    rw [hdot, takeWhile_append_blank hdigit]
    exact ⟨rfl, hplaces⟩

theorem munch_append_blank_number (hc : c.isDigit = true) (rest ds : List Char) :
    munch c (rest ++ ' ' :: ds) = munch c rest := by
  have hdigit : Char.isDigit ' ' = false := by decide
  by_cases hfraction : ∃ more, HasFraction rest more
  · obtain ⟨more, hfraction⟩ := hfraction
    rw [munch_of_hasFraction hc hfraction, munch_of_hasFraction hc (hasFraction_append_blank.mpr ⟨more, hfraction, rfl⟩),
      takeWhile_append_blank hdigit, takeWhile_append_blank hdigit]
  · have hnone := not_exists.mp hfraction
    have hnone' (more : List Char) : ¬ HasFraction (rest ++ ' ' :: ds) more := by
      intro h
      obtain ⟨before, hbefore, -⟩ := hasFraction_append_blank.mp h
      exact hnone before hbefore
    rw [munch_of_no_fraction hc hnone, munch_of_no_fraction hc hnone', takeWhile_append_blank hdigit]

theorem munch_append_blank_brace (hcomment : rest.head? ≠ some '#') (ds : List Char) :
    munch '{' (rest ++ ' ' :: ds) = munch '{' rest := by
  cases rest with
  | nil => rfl
  | cons d rest =>
    have hhash : d ≠ '#' := fun hd => hcomment (congrArg some hd)
    by_cases hpercent : d = '%'
    · subst hpercent
      rw [List.cons_append, munch_blockOpen, munch_blockOpen]
      cases rest with
      | nil => rfl
      | cons e rest => rfl
    · simp [munch, isBlank, isNameStart, hpercent, hhash]

/-- What is no blank, no string and no comment ends before a blank. -/
theorem munch_append_blank_of_ne (hc : isBlank c = false) (hstring : ¬ (c = '"' ∨ c = '\''))
    (hcomment : c = '{' → rest.head? ≠ some '#') (ds : List Char) : munch c (rest ++ ' ' :: ds) = munch c rest := by
  rcases munch_cases c with hblank | hname | hdigit | hquote | rfl | rfl | hsign | hother
  · exact absurd hblank (Bool.eq_false_iff.mp hc)
  · rw [munch_name hname, munch_name hname, takeWhile_append_blank (by decide)]
  · exact munch_append_blank_number hdigit rest ds
  · exact absurd hquote hstring
  · exact munch_append_blank_brace (hcomment rfl) ds
  · rw [munch_percent, munch_percent]
    cases rest <;> rfl
  · obtain ⟨t, -, hmunch⟩ := munch_sign hsign
    simp only [hmunch, take_append_blank]
  · rw [hother, hother]

/-- A piece that is closed ends before a blank, whatever follows the blank. -/
theorem munch_append_blank (hc : isBlank c = false) (hkind : (munch c rest).1 ≠ .rejected) (ds : List Char) :
    munch c (rest ++ ' ' :: ds) = munch c rest := by
  by_cases hstring : c = '"' ∨ c = '\''
  · have hescape : c ≠ '\\' := by
      rcases hstring with rfl | rfl <;> decide
    cases hbody : stringBody c rest with
    | mk contents n =>
      cases contents with
      | none => exact absurd (rejected_of_stringBody hstring (congrArg Prod.fst hbody)) hkind
      | some contents =>
        have hclosed : (stringBody c rest).1.isSome := by simp [hbody]
        have hbody' := (stringBody_append hescape hclosed (' ' :: ds)).trans hbody
        rw [munch_of_stringBody hstring hbody, munch_of_stringBody hstring hbody']
  by_cases hcomment : c = '{' → rest.head? ≠ some '#'
  · exact munch_append_blank_of_ne hc hstring hcomment ds
  · obtain ⟨rfl, hhead⟩ := Classical.not_imp.mp hcomment
    obtain ⟨body, rfl⟩ := List.head?_eq_some_iff.mp (not_not.mp hhead)
    rw [munch_comment] at hkind
    cases hclosed : (commentBody body).1 with
    | true => rw [List.cons_append, munch_comment, munch_comment, commentBody_append hclosed]
    | false =>
      rw [hclosed] at hkind
      exact absurd rfl hkind

/-- The piece that begins with `c` is the same before a blank, or it is open there and stays so. -/
def KeepsPiece (c : Char) (rest ds : List Char) : Prop :=
  munch c (rest ++ ' ' :: ds) = munch c rest ∨
    (munch c rest).1 = .rejected ∧ (munch c (rest ++ ' ' :: ds)).1 = .rejected

theorem keepsPiece_string (hc : c = '"' ∨ c = '\'') (hds : ClosesNothing ds)
    (hkind : (munch c rest).1 = .rejected) : KeepsPiece c rest ds := by
  have hquote : c ∉ ' ' :: ds := by
    rcases hc with rfl | rfl
    · exact List.not_mem_cons_of_ne_of_not_mem (by decide) hds.double
    · exact List.not_mem_cons_of_ne_of_not_mem (by decide) hds.single
  have hopen : (stringBody c rest).1 = none := by
    cases hbody : stringBody c rest with
    | mk contents n =>
      cases contents with
      | none => rfl
      | some contents =>
        rw [munch_of_stringBody hc hbody] at hkind
        cases hkind
  exact .inr ⟨hkind, rejected_of_stringBody hc (stringBody_append_eq_none hopen hquote)⟩

theorem keepsPiece_comment (hds : ClosesNothing ds) (body : List Char)
    (hkind : (munch '{' ('#' :: body)).1 = .rejected) : KeepsPiece '{' ('#' :: body) ds := by
  refine .inr ⟨hkind, ?_⟩
  rw [munch_comment] at hkind
  rw [List.cons_append, munch_comment]
  cases hclosed : (commentBody body).1 with
  | true =>
    rw [hclosed] at hkind
    cases hkind
  | false =>
    rw [commentBody_append_eq_false hclosed hds.hash]
    rfl

theorem keepsPiece (hc : isBlank c = false) (hds : ClosesNothing ds) (rest : List Char) : KeepsPiece c rest ds := by
  by_cases hkind : (munch c rest).1 = .rejected
  · by_cases hstring : c = '"' ∨ c = '\''
    · exact keepsPiece_string hstring hds hkind
    by_cases hcomment : c = '{' → rest.head? ≠ some '#'
    · exact .inl (munch_append_blank_of_ne hc hstring hcomment ds)
    · obtain ⟨rfl, hhead⟩ := Classical.not_imp.mp hcomment
      obtain ⟨body, rfl⟩ := List.head?_eq_some_iff.mp (not_not.mp hhead)
      exact keepsPiece_comment hds body hkind
  · exact .inl (munch_append_blank hc hkind ds)

theorem drop_length_takeWhile (p : Char → Bool) (cs : List Char) : cs.drop (cs.takeWhile p).length = cs.dropWhile p := by
  conv => lhs; arg 2; rw [← List.takeWhile_append_dropWhile (p := p) (l := cs)]
  exact List.drop_left

end Lexer

namespace Directive

open Lexer (ClosesNothing munch)

variable {c : Char} {ds : List Char}

/-- The tokens of a text are the first one and those of what is left. -/
theorem toOption_scan_cons (start : Nat) (c : Char) (rest : List Char) : (scan start (c :: rest)).toOption =
    let stop := start + byteLength (c :: rest.take (munch c rest).2)
    match (munch c rest).1 with
    | .token t => (scan stop (rest.drop (munch c rest).2)).toOption.map (⟨t, ⟨start, stop⟩⟩ :: ·)
    | .skipped => (scan stop (rest.drop (munch c rest).2)).toOption
    | .rejected => none := by
  unfold scan Lexer.firstRejected Lexer.lexemes
  rw [Lexer.pieces_cons, Lexer.firstRejectedFrom, Lexer.lexemesFrom]
  dsimp only
  cases (munch c rest).1 with
  | token t =>
    dsimp only
    split <;> rfl
  | skipped => rfl
  | rejected => rfl

theorem toOption_scan_token {t : Token} {cs rest : List Char} (h : munch c (cs ++ rest) = (.token t, cs.length)) (start : Nat) :
    (scan start (c :: (cs ++ rest))).toOption = (scan (start + byteLength (c :: cs)) rest).toOption.map
      (⟨t, ⟨start, start + byteLength (c :: cs)⟩⟩ :: ·) := by
  rw [toOption_scan_cons, h, List.take_left, List.drop_left]

theorem toOption_scan_nil (start : Nat) : (scan start []).toOption = some [] := by
  rw [scan, Lexer.firstRejected, Lexer.lexemes, Lexer.pieces]
  rfl

theorem toOption_scan_blank (hc : isBlank c = true) (start : Nat) (rest : List Char) :
    (scan start (c :: rest)).toOption = (scan (start + c.utf8Size) rest).toOption := by
  have hskip {d : Char} (hd : isBlank d = true) (start : Nat) (rest : List Char) : (scan start (d :: rest)).toOption =
      (scan (start + byteLength (d :: rest.takeWhile isBlank)) (rest.dropWhile isBlank)).toOption := by
    rw [toOption_scan_cons, Lexer.munch_blank hd, Lexer.take_length_takeWhile, Lexer.drop_length_takeWhile]
  rw [hskip hc, byteLength_cons]
  cases rest with
  | nil => rfl
  | cons d rest =>
    by_cases hd : isBlank d = true
    · rw [hskip hd, List.takeWhile_cons_of_pos hd, List.dropWhile_cons_of_pos hd, Nat.add_assoc]
    · rw [List.takeWhile_cons_of_neg hd, List.dropWhile_cons_of_neg hd]
      rfl

/-- The tokens of two texts with a blank between them, if the second one closes nothing that is open in the first one. -/
theorem toOption_scan_append (hds : ClosesNothing ds) (start : Nat) : ∀ cs : List Char,
    (scan start (cs ++ ' ' :: ds)).toOption = (scan start cs).toOption.bind fun front =>
      (scan (start + byteLength cs + 1) ds).toOption.map (front ++ ·)
  | [] => by
    rw [List.nil_append, toOption_scan_blank (by decide), toOption_scan_nil, Option.bind_some]
    exact Option.map_id'.symm
  | c :: rest => by
    by_cases hc : isBlank c = true
    · rw [List.cons_append, toOption_scan_blank hc, toOption_scan_blank hc, toOption_scan_append hds _ rest, byteLength_cons,
        Nat.add_assoc start]
    rw [List.cons_append, toOption_scan_cons, toOption_scan_cons]
    rcases Lexer.keepsPiece (Bool.eq_false_iff.mpr hc) hds rest with hkept | ⟨hopen, hopen'⟩
    · have hlength := Lexer.munch_length_le c rest
      have hbytes : start + byteLength (c :: rest.take (munch c rest).2) + byteLength (rest.drop (munch c rest).2) =
          start + byteLength (c :: rest) := by
        rw [byteLength_cons, byteLength_cons, Nat.add_assoc, Nat.add_assoc, ← byteLength_append, List.take_append_drop]
      rw [hkept, List.take_append_of_le_length hlength, List.drop_append_of_le_length hlength]
      dsimp only
      rw [toOption_scan_append hds _ (rest.drop (munch c rest).2), hbytes]
      cases (munch c rest).1 with
      | token t =>
        dsimp only
        rw [Option.map_bind, Option.bind_map]
        simp [Function.comp_def]
      | skipped => rfl
      | rejected => rfl
    · rw [hopen, hopen']
      rfl
termination_by cs => cs.length
decreasing_by all_goals simp only [List.length_drop, List.length_cons]; omega

end Directive

end Inclusion
