import Inclusion.Proofs.Token.Append
import Inclusion.Proofs.Token.Place
/-!
# A part of a text between its tokens

A text that is cut off at the end of a piece has the same pieces up to there: what begins at a character depends on no
character after the piece (`munch_take`). So a part of a text that begins and ends with pieces of the text has exactly
these pieces (`pieces_part`), and its tokens are those of the text.
-/

namespace Inclusion

namespace Lexer

variable {c quote : Char} {cs rest : List Char} {m n : Nat}

/-! ### What a piece depends on -/

theorem stringBody_take {contents : List Char} (hquote : quote ≠ '\\') (h : stringBody quote cs = (some contents, n))
    (hm : n ≤ m) : stringBody quote (cs.take m) = (some contents, n) := by
  obtain ⟨body, hitems, rest, rfl, hcontents, hlength⟩ := (stringBody_eq_some_iff hquote).mp h
  obtain ⟨k, rfl⟩ := Nat.exists_eq_add_of_le hm
  refine (stringBody_eq_some_iff hquote).mpr ⟨body, hitems, rest.take k, ?_, hcontents, hlength⟩
  rw [hlength, Nat.add_assoc, Nat.add_comm 1, List.take_length_add_append, List.take_succ_cons]

theorem commentBody_take (h : commentBody cs = (true, n)) (hm : n ≤ m) : commentBody (cs.take m) = (true, n) := by
  obtain ⟨body, hitems, rest, rfl, hlength⟩ := commentBody_eq_true_iff.mp h
  obtain ⟨k, rfl⟩ := Nat.exists_eq_add_of_le hm
  refine commentBody_eq_true_iff.mpr ⟨body, hitems, rest.take k, ?_, hlength⟩
  rw [hlength, Nat.add_assoc, Nat.add_comm 2, List.take_length_add_append, List.take_succ_cons, List.take_succ_cons]

theorem takeWhile_take {p : Char → Bool} (hm : (cs.takeWhile p).length ≤ m) :
    (cs.take m).takeWhile p = cs.takeWhile p := by
  induction cs generalizing m with
  | nil => rw [List.take_nil]
  | cons c cs ih =>
    by_cases hc : p c = true
    · rw [List.takeWhile_cons_of_pos hc, List.length_cons] at hm
      obtain ⟨m, rfl⟩ := Nat.exists_eq_add_of_le' (Nat.le_trans (Nat.le_add_left 1 _) hm)
      rw [List.take_succ_cons, List.takeWhile_cons_of_pos hc, List.takeWhile_cons_of_pos hc, ih (by omega)]
    · rw [List.takeWhile_cons_of_neg hc]
      cases m with
      | zero => rfl
      | succ m => rw [List.take_succ_cons, List.takeWhile_cons_of_neg hc]

theorem munch_take_name (hc : isNameStart c = true) (hm : (munch c rest).2 ≤ m) :
    munch c (rest.take m) = munch c rest := by
  rw [munch_name hc] at hm
  rw [munch_name hc, munch_name hc, takeWhile_take hm]

/-- A fraction is cut off with the text, down to nothing or as a whole. -/
theorem HasFraction.of_take {more : List Char} (h : HasFraction (cs.take m) more)
    (hm : (cs.takeWhile Char.isDigit).length ≤ m) : ∃ more', HasFraction cs more' := by
  rw [HasFraction, takeWhile_take hm, List.drop_take] at h
  obtain ⟨hdot, hplaces⟩ := h
  obtain ⟨after, hafter⟩ := List.take_prefix (m - (cs.takeWhile Char.isDigit).length) (cs.drop (cs.takeWhile Char.isDigit).length)
  rw [hdot, List.cons_append] at hafter
  refine ⟨more ++ after, hafter.symm, fun hnone => hplaces ?_⟩
  cases more with
  | nil => rfl
  | cons d more =>
    rw [List.cons_append] at hnone
    rw [List.takeWhile_cons] at hnone ⊢
    split at hnone
    · cases hnone
    · next hd => rw [if_neg hd]

theorem HasFraction.take {more : List Char} (h : HasFraction cs more)
    (hm : (cs.takeWhile Char.isDigit).length + 1 + (more.takeWhile Char.isDigit).length ≤ m) : ∃ k,
      HasFraction (cs.take m) (more.take k) ∧ (more.takeWhile Char.isDigit).length ≤ k := by
  obtain ⟨k, rfl⟩ := Nat.exists_eq_add_of_le hm
  refine ⟨(more.takeWhile Char.isDigit).length + k, ⟨?_, ?_⟩, Nat.le_add_right _ _⟩
  · have hwhole : (cs.takeWhile Char.isDigit).length ≤
        (cs.takeWhile Char.isDigit).length + 1 + (more.takeWhile Char.isDigit).length + k := by omega
    have hleft : (cs.takeWhile Char.isDigit).length + 1 + (more.takeWhile Char.isDigit).length + k -
        (cs.takeWhile Char.isDigit).length = (more.takeWhile Char.isDigit).length + k + 1 := by omega
    rw [takeWhile_take hwhole, List.drop_take, h.1, hleft, List.take_succ_cons]
  · rw [takeWhile_take (Nat.le_add_right _ _)]
    exact h.2

theorem munch_take_number (hc : c.isDigit = true) (hm : (munch c rest).2 ≤ m) :
    munch c (rest.take m) = munch c rest := by
  by_cases hfraction : ∃ more, HasFraction rest more
  · obtain ⟨more, hfraction⟩ := hfraction
    rw [munch_of_hasFraction hc hfraction] at hm
    obtain ⟨k, hcut, hk⟩ := hfraction.take hm
    have hwhole : (rest.takeWhile Char.isDigit).length ≤ m := by
      dsimp only at hm
      omega
    rw [munch_of_hasFraction hc hfraction, munch_of_hasFraction hc hcut, takeWhile_take hwhole, takeWhile_take hk]
  · have hnone := not_exists.mp hfraction
    rw [munch_of_no_fraction hc hnone] at hm
    have hnone' (more : List Char) : ¬ HasFraction (rest.take m) more := fun h => hfraction (h.of_take hm)
    rw [munch_of_no_fraction hc hnone, munch_of_no_fraction hc hnone', takeWhile_take hm]

theorem munch_take_string (hc : c = '"' ∨ c = '\'') (hkind : (munch c rest).1 ≠ .rejected) (hm : (munch c rest).2 ≤ m) :
    munch c (rest.take m) = munch c rest := by
  have hescape : c ≠ '\\' := by
    rcases hc with rfl | rfl <;> decide
  cases hbody : stringBody c rest with
  | mk contents n =>
    cases contents with
    | none => exact absurd (rejected_of_stringBody hc (congrArg Prod.fst hbody)) hkind
    | some contents =>
      have hmunch := munch_of_stringBody hc hbody
      rw [hmunch] at hm
      rw [hmunch, munch_of_stringBody hc (stringBody_take hescape hbody hm)]

theorem munch_take_brace (hkind : (munch '{' rest).1 ≠ .rejected) (hm : (munch '{' rest).2 ≤ m) :
    munch '{' (rest.take m) = munch '{' rest := by
  cases rest with
  | nil => rw [List.take_nil]
  | cons d rest =>
    by_cases hhash : d = '#'
    · subst hhash
      rw [munch_comment] at hkind hm
      obtain ⟨m, rfl⟩ := Nat.exists_eq_add_of_le' (Nat.le_trans (Nat.le_add_left 1 _) hm)
      rw [List.take_succ_cons, munch_comment, munch_comment]
      cases hbody : commentBody rest with
      | mk closed n =>
        rw [hbody] at hkind hm
        cases closed with
        | false => exact absurd rfl hkind
        | true => rw [commentBody_take hbody (Nat.le_of_succ_le_succ hm)]
    by_cases hpercent : d = '%'
    · subst hpercent
      rw [munch_blockOpen] at hm
      have hpos : 1 ≤ m := by
        refine Nat.le_trans ?_ hm
        dsimp only
        split <;> omega
      obtain ⟨m, rfl⟩ := Nat.exists_eq_add_of_le' hpos
      rw [List.take_succ_cons, munch_blockOpen, munch_blockOpen, List.head?_take]
      cases m with
      | zero =>
        have hsign : ¬ (rest.head? = some '-' ∨ rest.head? = some '~') := by
          intro hsign
          simp [hsign] at hm
        rw [if_neg hsign]
        rfl
      | succ m => rfl
    · have hmunch (cs : List Char) : munch '{' (d :: cs) = (.token .braceOpen, 0) := by
        simp [munch, isBlank, isNameStart, hpercent, hhash]
      cases m with
      | zero => rw [List.take_zero, hmunch]; rfl
      | succ m => rw [List.take_succ_cons, hmunch, hmunch]

/-- The sign of a closing is taken into it only if the closing follows at once, cut off or not. -/
theorem munch_take_sign (hc : c = '-' ∨ c = '~') (hm : (munch c rest).2 ≤ m) : munch c (rest.take m) = munch c rest := by
  obtain ⟨t, -, hmunch⟩ := munch_sign hc
  rw [hmunch] at hm
  rw [hmunch, hmunch, List.take_take]
  by_cases hclose : rest.take 2 = ['%', '}']
  · rw [if_pos hclose] at hm
    rw [Nat.min_eq_left hm, if_pos hclose]
  · have hcut : rest.take (min 2 m) ≠ ['%', '}'] := by
      intro hcut
      have hlength := congrArg List.length hcut
      rw [List.length_take] at hlength
      have hmin : min 2 m = 2 := by
        simp only [List.length_cons, List.length_nil] at hlength
        omega
      exact hclose (hmin ▸ hcut)
    rw [if_neg hclose, if_neg hcut]

/-- The piece that begins with `c` is the same if the text is cut off behind it. -/
theorem munch_take (hkind : (munch c rest).1 ≠ .rejected) (hm : (munch c rest).2 ≤ m) :
    munch c (rest.take m) = munch c rest := by
  rcases munch_cases c with hblank | hname | hdigit | hquote | rfl | rfl | hsign | hother
  · rw [munch_blank hblank] at hm
    rw [munch_blank hblank, munch_blank hblank, takeWhile_take hm]
  · exact munch_take_name hname hm
  · exact munch_take_number hdigit hm
  · exact munch_take_string hquote hkind hm
  · exact munch_take_brace hkind hm
  · rw [munch_percent] at hkind hm
    by_cases hclose : rest.head? = some '}'
    · rw [if_pos hclose] at hm
      rw [munch_percent, munch_percent, List.head?_take, if_neg (Nat.ne_of_gt hm)]
    · rw [if_neg hclose] at hkind
      exact absurd rfl hkind
  · exact munch_take_sign hsign hm
  · rw [hother, hother]

/-! ### Parts -/

theorem pieces_behind {cs : List Char} {ps qs : List Piece} (h : pieces cs = ps ++ qs) :
    pieces (qs.flatMap Piece.text) = qs := by
  induction ps generalizing cs with
  | nil =>
    rw [List.nil_append] at h
    rw [← h, flatMap_text_pieces]
  | cons p ps ih =>
    cases cs with
    | nil =>
      rw [pieces] at h
      cases h
    | cons c rest =>
      rw [pieces_cons, List.cons_append] at h
      exact ih (List.cons.inj h).2

theorem pieces_before {ps qs : List Piece} (h : pieces cs = ps ++ qs) (hkinds : ∀ p ∈ ps, p.kind ≠ .rejected) :
    pieces (ps.flatMap Piece.text) = ps := by
  induction ps generalizing cs with
  | nil => rw [List.flatMap_nil, pieces]
  | cons p ps ih =>
    obtain ⟨hp, hps⟩ := List.forall_mem_cons.mp hkinds
    cases cs with
    | nil =>
      rw [pieces] at h
      cases h
    | cons c rest =>
      rw [pieces_cons, List.cons_append] at h
      obtain ⟨rfl, hrest⟩ := List.cons.inj h
      have hlength := munch_length_le c rest
      -- What is left of the text is cut off behind the pieces, so the first piece is seen in a text that is cut off, too.
      have hcut : rest.take (munch c rest).2 ++ ps.flatMap Piece.text =
          rest.take ((munch c rest).2 + (ps.flatMap Piece.text).length) := by
        have hleft : rest.drop (munch c rest).2 = ps.flatMap Piece.text ++ qs.flatMap Piece.text := by
          rw [← List.flatMap_append, ← hrest, flatMap_text_pieces]
        rw [List.take_add, hleft, List.take_left]
      have hmunch : munch c (rest.take (munch c rest).2 ++ ps.flatMap Piece.text) = munch c rest := by
        rw [hcut]
        exact munch_take hp (Nat.le_add_right _ _)
      have htake : (rest.take (munch c rest).2).length = (munch c rest).2 := List.length_take_of_le hlength
      rw [List.flatMap_cons, List.cons_append, pieces_cons, hmunch, List.take_append_of_le_length (Nat.le_of_eq htake.symm),
        List.drop_append_of_le_length (Nat.le_of_eq htake.symm), List.take_take, Nat.min_self,
        List.drop_of_length_le (Nat.le_of_eq htake), List.nil_append, ih hrest hps]

/-- The pieces of a part of a text that begins and ends with pieces of the text. -/
theorem pieces_part {before part after : List Piece} (h : pieces cs = before ++ part ++ after)
    (hkinds : ∀ p ∈ part, p.kind ≠ .rejected) : pieces (part.flatMap Piece.text) = part := by
  rw [List.append_assoc] at h
  exact pieces_before (pieces_behind h) hkinds

/-- The tokens from one index up to another are those of a part of the text, which begins where the first of them does and
ends where the last does. -/
theorem exists_part {first next : Nat} {a b : Lexeme} (ha : (lexemes 0 cs)[first]? = some a)
    (hb : (lexemes 0 cs)[next - 1]? = some b) (horder : first < next) :
    ∃ before part after, pieces cs = before ++ part ++ after ∧ a.span.start = byteLength (before.flatMap Piece.text) ∧
      b.span.stop = byteLength ((before ++ part).flatMap Piece.text) ∧
      lexemesFrom a.span.start part = ((lexemes 0 cs).take next).drop first := by
  -- Behind the last token first, and then, in what is left, in front of the first one.
  obtain ⟨front, q, after, hpieces, -, -, hthrough, hstop⟩ := exists_of_getElem?_lexemesFrom hb
  have hnext : next - 1 + 1 = next := Nat.sub_add_cancel (Nat.lt_of_le_of_lt (Nat.zero_le _) horder)
  have hfront : lexemesFrom 0 (front ++ [q]) = (lexemes 0 cs).take next := by
    rw [hthrough, hnext]
    rfl
  have hfirst : (lexemesFrom 0 (front ++ [q]))[first]? = some a := by
    rw [hfront, List.getElem?_take_of_lt horder, ha]
  obtain ⟨before, p, middle, hparts, -, hbefore, -, hstart⟩ := exists_of_getElem?_lexemesFrom hfirst
  rw [Nat.zero_add, Nat.zero_add] at hstart hstop
  refine ⟨before, p :: middle, after, ?_, ?_, ?_, ?_⟩
  · rw [← hparts, hpieces, List.append_assoc]
    rfl
  · rw [hstart]
  · rw [hstop, ← hparts]
  · have hsplit := lexemesFrom_append 0 before (p :: middle)
    have hlength : (lexemesFrom 0 before).length = first := by
      rw [hbefore, List.length_take_of_le (Nat.le_of_lt (List.getElem?_eq_some_iff.mp hfirst).1)]
    rw [← hparts, hfront, Nat.zero_add] at hsplit
    rw [hsplit, hstart, List.drop_left' hlength]

end Lexer

end Inclusion
