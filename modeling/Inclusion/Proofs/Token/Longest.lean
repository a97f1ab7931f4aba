import Inclusion.Proofs.Token.Part
/-!
# The longest match

What is taken off a text is a match of the patterns (`matches_munch`), and a text that is a match is taken off as a whole
(`munch_of_matches`). So a text is one thing only, and because what is taken off does not change if the text is cut off
behind it, no other match that the text begins with is longer (`length_le_of_matches`).
-/

namespace Inclusion

namespace Lexer

variable {c quote : Char} {cs rest text : List Char} {t : Token} {kind : Piece.Kind} {before after : List Piece} {p : Piece}

/-! ### What is taken is a match -/

theorem munch_of_fixed (h : (c :: cs, t) ∈ fixedTokens) : munch c cs = (.token t, cs.length) := by
  have hall : ∀ p ∈ fixedTokens, munch (p.1.headD ' ') p.1.tail = (.token p.2, p.1.tail.length) := by decide
  exact hall _ h

theorem mem_fixedTokens_of_symbol? (h : symbol? c = some t) : ([c], t) ∈ fixedTokens := by
  unfold symbol? at h
  split at h <;> cases h <;> decide

theorem munch_of_isWord (h : isWord (c :: cs) = true) : munch c cs = (.token (wordToken (c :: cs)), cs.length) := by
  rw [isWord, Bool.and_eq_true, List.all_eq_true] at h
  rw [munch_name h.1, List.takeWhile_eq_self_iff.mpr h.2]

/-- Every keyword is a token that is always written in the same way. -/
theorem wordToken_eq_ident (hfree : ∀ t, (text, t) ∉ fixedTokens) : wordToken text = .ident (String.ofList text) := by
  have hkeywords : ∀ word ∈ keywords, ∃ p ∈ fixedTokens, p.1 = word.toList := by decide
  rw [← String.toList_ofList (l := text), wordToken_eq_ident_iff.mpr, String.toList_ofList]
  intro hmem
  obtain ⟨p, hp, htext⟩ := hkeywords _ hmem
  rw [String.toList_ofList] at htext
  exact hfree p.2 (htext ▸ hp)

theorem matches_word (h : isWord text = true) : Matches text (.token (wordToken text)) := by
  by_cases hfixed : ∃ t, (text, t) ∈ fixedTokens
  · obtain ⟨t, ht⟩ := hfixed
    obtain ⟨c, cs, rfl, -⟩ := exists_cons_of_isWord h
    have hmunch := (munch_of_isWord h).symm.trans (munch_of_fixed ht)
    rw [(Prod.mk.inj hmunch).1]
    exact .fixed ht
  · have hfree := not_exists.mp hfixed
    rw [wordToken_eq_ident hfree]
    exact .word (Pattern.mem_word.mpr h) hfree

theorem mem_digits_cons (hc : c.isDigit = true) (rest : List Char) : c :: rest.takeWhile Char.isDigit ∈ Pattern.digits :=
  Pattern.mem_digits.mpr ⟨List.cons_ne_nil _ _, List.forall_mem_cons.mpr ⟨hc, fun _ hd => List.mem_takeWhile_imp hd⟩⟩

theorem matches_number (hc : c.isDigit = true) (rest : List Char) :
    Matches (c :: rest.take (munch c rest).2) (munch c rest).1 := by
  by_cases hfraction : ∃ more, HasFraction rest more
  · obtain ⟨more, hfraction⟩ := hfraction
    have hdigits : more.takeWhile Char.isDigit ∈ Pattern.digits :=
      Pattern.mem_digits.mpr ⟨hfraction.2, fun d hd => List.mem_takeWhile_imp hd⟩
    rw [munch_of_hasFraction hc hfraction]
    dsimp only
    rw [take_takeWhile_add _ hfraction.1, take_length_takeWhile]
    exact .fraction (mem_digits_cons hc rest) hdigits
  · rw [munch_of_no_fraction hc (not_exists.mp hfraction), take_length_takeWhile]
    exact .integer (mem_digits_cons hc rest)

theorem matches_string (hquote : quote = '"' ∨ quote = '\'') (hkind : (munch quote rest).1 ≠ .rejected) :
    Matches (quote :: rest.take (munch quote rest).2) (munch quote rest).1 := by
  cases hcontents : stringBody quote rest with
  | mk contents n =>
    cases contents with
    | none => exact absurd (rejected_of_stringBody hquote (congrArg Prod.fst hcontents)) hkind
    | some contents =>
      rw [munch_of_stringBody hquote hcontents]
      obtain ⟨body, hbody, after, rfl, rfl, rfl⟩ := exists_of_stringBody hcontents
      have htake : (body ++ quote :: after).take (body.length + 1) = body ++ [quote] := by
        rw [List.take_length_add_append]
        rfl
      have hquoted : quote :: (body ++ [quote]) ∈ Pattern.quoted quote := Pattern.mem_between.mpr ⟨body, hbody, rfl⟩
      have hmatches := Matches.quoted hquote hquoted
      rw [List.tail_cons, List.dropLast_concat] at hmatches
      rwa [htake]

theorem matches_comment (hkind : (munch '{' ('#' :: rest)).1 ≠ .rejected) :
    Matches ('{' :: ('#' :: rest).take (munch '{' ('#' :: rest)).2) (munch '{' ('#' :: rest)).1 := by
  rw [munch_comment] at hkind ⊢
  cases hclosed : commentBody rest with
  | mk closed n =>
    cases closed with
    | false =>
      rw [hclosed] at hkind
      exact absurd rfl hkind
    | true =>
      obtain ⟨body, hbody, after, rfl, rfl⟩ := exists_of_commentBody hclosed
      have htake : (body ++ '#' :: '}' :: after).take (body.length + 2) = body ++ ['#', '}'] := by
        rw [List.take_length_add_append]
        rfl
      show Matches ('{' :: '#' :: (body ++ '#' :: '}' :: after).take (body.length + 2)) .skipped
      rw [htake]
      exact .comment (Pattern.mem_between.mpr ⟨body, hbody, rfl⟩)

theorem matches_brace (hkind : (munch '{' rest).1 ≠ .rejected) :
    Matches ('{' :: rest.take (munch '{' rest).2) (munch '{' rest).1 := by
  cases rest with
  | nil => exact .fixed (by decide)
  | cons d rest =>
    by_cases hhash : d = '#'
    · subst hhash
      exact matches_comment hkind
    by_cases hpercent : d = '%'
    · subst hpercent
      rw [munch_blockOpen]
      dsimp only
      split
      · next hsign =>
        rcases hsign with hsign | hsign
        · obtain ⟨after, rfl⟩ := List.head?_eq_some_iff.mp hsign
          exact .fixed (by simp [fixedTokens])
        · obtain ⟨after, rfl⟩ := List.head?_eq_some_iff.mp hsign
          exact .fixed (by simp [fixedTokens])
      · exact .fixed (by simp [fixedTokens])
    · rw [munch_of_symbol? rfl (by simp [hhash, hpercent])]
      exact .fixed (by simp [fixedTokens])

theorem matches_munch (hkind : (munch c rest).1 ≠ .rejected) :
    Matches (c :: rest.take (munch c rest).2) (munch c rest).1 := by
  rcases munch_cases c with hblank | hname | hdigit | hquote | rfl | rfl | hsign | hother
  · rw [munch_blank hblank, take_length_takeWhile]
    refine .blanks (Pattern.mem_blanks.mpr ⟨List.cons_ne_nil _ _, ?_⟩)
    exact List.forall_mem_cons.mpr ⟨hblank, fun _ hd => List.mem_takeWhile_imp hd⟩
  · rw [munch_name hname, take_length_takeWhile]
    apply matches_word
    rw [isWord, hname, List.all_takeWhile]
    rfl
  · exact matches_number hdigit rest
  · exact matches_string hquote hkind
  · exact matches_brace hkind
  · rw [munch_percent] at hkind ⊢
    split at hkind
    · next hclose =>
      rw [if_pos hclose]
      obtain ⟨after, rfl⟩ := List.head?_eq_some_iff.mp hclose
      show Matches ['%', '}'] (.token .blockClose)
      exact .fixed (by decide)
    · exact absurd rfl hkind
  · obtain ⟨alone, hsymbol, hmunch⟩ := munch_sign hsign
    rw [hmunch]
    split
    · next hclose =>
      dsimp only
      rw [hclose]
      rcases hsign with rfl | rfl <;> exact .fixed (by decide)
    · exact .fixed (mem_fixedTokens_of_symbol? hsymbol)
  · rw [hother] at hkind ⊢
    cases hsymbol : symbol? c with
    | none =>
      rw [hsymbol] at hkind
      exact absurd rfl hkind
    | some t => exact .fixed (mem_fixedTokens_of_symbol? hsymbol)

/-! ### A match is taken as a whole -/

theorem munch_of_quoted (hquote : quote = '"' ∨ quote = '\'') (h : c :: cs ∈ Pattern.quoted quote) :
    munch c cs = (.token (.string (String.ofList (unescaped cs.dropLast))), cs.length) := by
  have hescape : quote ≠ '\\' := by
    rcases hquote with rfl | rfl <;> decide
  obtain ⟨body, hbody, heq⟩ := Pattern.mem_between.mp h
  obtain ⟨rfl, rfl⟩ := List.cons.inj heq
  show munch c (body ++ [c]) = (.token (.string (String.ofList (unescaped (body ++ [c]).dropLast))), (body ++ [c]).length)
  rw [munch_of_stringBody hquote (stringBody_of_mem hescape hbody []), List.dropLast_concat, List.length_append]
  rfl

theorem munch_of_fraction {whole places : List Char} (hwhole : whole ∈ Pattern.digits) (hplaces : places ∈ Pattern.digits)
    (h : c :: cs = whole ++ '.' :: places) : munch c cs =
      (.token (.float (Binary64.ofDecimal false (ofDigits 10 (whole ++ places)) (-places.length))), cs.length) := by
  obtain ⟨hne, hdigits⟩ := Pattern.mem_digits.mp hwhole
  obtain ⟨hsome, hplaces⟩ := Pattern.mem_digits.mp hplaces
  obtain ⟨d, tail, rfl⟩ := List.exists_cons_of_ne_nil hne
  obtain ⟨rfl, rfl⟩ := List.cons.inj h
  obtain ⟨hc, htail⟩ := List.forall_mem_cons.mp hdigits
  have hwhole : (tail ++ '.' :: places).takeWhile Char.isDigit = tail := takeWhile_append_stop htail (by simp)
  have hmany := List.takeWhile_eq_self_iff.mpr hplaces
  have hfraction : HasFraction (tail ++ '.' :: places) places := by
    rw [HasFraction, hwhole, List.drop_left, hmany]
    exact ⟨rfl, hsome⟩
  show munch c (tail ++ '.' :: places) = (_, (tail ++ '.' :: places).length)
  rw [munch_of_hasFraction hc hfraction, hwhole, hmany, List.length_append, List.length_cons, Nat.add_assoc, Nat.add_comm 1]

theorem munch_of_matches (h : Matches (c :: cs) kind) : munch c cs = (kind, cs.length) := by
  generalize htext : c :: cs = text at h
  cases h with
  | fixed h => exact munch_of_fixed (htext ▸ h)
  | word h hfree =>
    subst htext
    rw [munch_of_isWord (Pattern.mem_word.mp h), wordToken_eq_ident hfree]
  | quoted hquote h =>
    subst htext
    exact munch_of_quoted hquote h
  | integer h =>
    subst htext
    have hmunch : munch c (cs ++ []) = (integerKind (c :: cs), cs.length) :=
      munch_digits (Pattern.mem_digits.mp h).2 (by simp)
    rwa [List.append_nil] at hmunch
  | fraction hwhole hplaces => exact munch_of_fraction hwhole hplaces htext
  | comment h =>
    obtain ⟨body, hbody, rfl⟩ := Pattern.mem_between.mp h
    obtain ⟨rfl, rfl⟩ := List.cons.inj htext
    show munch '{' ('#' :: (body ++ ['#', '}'])) = (.skipped, (body ++ ['#', '}']).length + 1)
    rw [munch_comment, commentBody_of_mem hbody, List.length_append]
    rfl
  | blanks h =>
    subst htext
    obtain ⟨hc, hcs⟩ := List.forall_mem_cons.mp (Pattern.mem_blanks.mp h).2
    rw [munch_blank hc, List.takeWhile_eq_self_iff.mpr hcs]

theorem Matches.ne_nil (h : Matches text kind) : text ≠ [] := by
  cases h with
  | fixed h =>
    have hall : ∀ p ∈ fixedTokens, p.1 ≠ [] := by decide
    exact hall _ h
  | word h =>
    obtain ⟨c, cs, rfl, -⟩ := exists_cons_of_isWord (Pattern.mem_word.mp h)
    exact List.cons_ne_nil c cs
  | quoted _ h =>
    obtain ⟨body, -, rfl⟩ := Pattern.mem_between.mp h
    exact List.cons_ne_nil _ _
  | integer h => exact (Pattern.mem_digits.mp h).1
  | fraction => exact List.append_ne_nil_of_right_ne_nil _ (List.cons_ne_nil _ _)
  | comment h =>
    obtain ⟨body, -, rfl⟩ := Pattern.mem_between.mp h
    exact List.cons_ne_nil _ _
  | blanks h => exact (Pattern.mem_blanks.mp h).1

/-- A text is one thing only. -/
theorem Matches.unique {kind' : Piece.Kind} (h : Matches text kind) (h' : Matches text kind') : kind = kind' := by
  obtain ⟨c, cs, rfl⟩ := List.exists_cons_of_ne_nil h.ne_nil
  exact (Prod.mk.inj ((munch_of_matches h).symm.trans (munch_of_matches h'))).1

/-- No match is longer: a longer one would have the same piece taken off it, yet it is taken as a whole. -/
theorem length_le_of_matches (hkind : (munch c rest).1 ≠ .rejected) (h : Matches text kind) (hbegins : text <+: c :: rest) :
    text.length ≤ (munch c rest).2 + 1 := by
  obtain ⟨d, cs, rfl⟩ := List.exists_cons_of_ne_nil h.ne_nil
  obtain ⟨rfl, hcs⟩ := List.cons_prefix_cons.mp hbegins
  by_contra hlonger
  rw [List.length_cons, Nat.add_le_add_iff_right, Nat.not_le] at hlonger
  have hcut : munch d cs = munch d rest := by
    rw [List.prefix_iff_eq_take.mp hcs]
    exact munch_take hkind (Nat.le_of_lt hlonger)
  rw [← hcut, munch_of_matches h] at hlonger
  exact Nat.lt_irrefl _ hlonger

/-! ### The pieces of a text -/

theorem munch_of_pieces (h : pieces cs = before ++ p :: after) : ∃ c rest,
    p.text ++ after.flatMap Piece.text = c :: rest ∧ p.kind = (munch c rest).1 ∧ p.text = c :: rest.take (munch c rest).2 := by
  have hbehind := pieces_behind h
  rw [List.flatMap_cons] at hbehind
  cases hcs : p.text ++ after.flatMap Piece.text with
  | nil =>
    rw [hcs, pieces] at hbehind
    cases hbehind
  | cons c rest =>
    rw [hcs, pieces_cons] at hbehind
    obtain ⟨rfl, -⟩ := List.cons.inj hbehind
    exact ⟨c, rest, rfl, rfl, rfl⟩

theorem matches_of_pieces (h : pieces cs = before ++ p :: after) (hkind : p.kind ≠ .rejected) : Matches p.text p.kind := by
  obtain ⟨c, rest, -, hp, htext⟩ := munch_of_pieces h
  rw [hp] at hkind ⊢
  rw [htext]
  exact matches_munch hkind

theorem length_le_of_pieces (h : pieces cs = before ++ p :: after) (hkind : p.kind ≠ .rejected) (hmatch : Matches text kind)
    (hbegins : text <+: p.text ++ after.flatMap Piece.text) : text.length ≤ p.text.length := by
  obtain ⟨c, rest, hcs, hp, htext⟩ := munch_of_pieces h
  rw [hp] at hkind
  rw [hcs] at hbegins
  rw [htext, List.length_cons, List.length_take_of_le (munch_length_le c rest)]
  exact length_le_of_matches hkind hmatch hbegins

end Lexer

end Inclusion
