import Inclusion.Proofs.Template.Segments
import Inclusion.Proofs.Text.Bytes
import Inclusion.Proofs.Text.Slice
/-!
# The scan for blocks on bytes

The blocks of a template can also be found by going through its UTF-8 bytes with a place that only moves forward. Such a
scan looks at single bytes, jumps over a byte behind a backslash, and cuts pieces out of the text, which works only
between two characters. It finds the blocks that the scan of the characters finds, and no cut ever fails
(`blocksAt_eq`): what it looks for are ASCII characters, and the other bytes of a character are none.
-/

namespace Inclusion

namespace Template

/-- The UTF-8 bytes of a text. -/
def bytes (cs : List Char) : List UInt8 :=
  cs.flatMap String.utf8EncodeChar

/-- The quote that is open after one more sign, a character or a byte, given the two signs that are quotes. -/
def nextQuote {α : Type} [DecidableEq α] (double single : α) (quote : Option α) (sign : α) : Option α :=
  match quote with
  | some q => if sign = q then none else some q
  | none => if sign = double ∨ sign = single then some sign else none

/-- The place just past the closing of a block, looked for from the place `i` on, when `quote` is open. -/
def blockEnd (bs : List UInt8) (quote : Option UInt8) (i : Nat) : Nat :=
  if h : i < bs.length then
    if quote.isSome ∧ bs[i] = '\\'.toUInt8 then blockEnd bs quote (i + 2)
    else if quote = none ∧ bs[i] = '%'.toUInt8 ∧ bs[i + 1]? = some '}'.toUInt8 then i + 2
    else blockEnd bs (nextQuote '"'.toUInt8 '\''.toUInt8 quote bs[i]) (i + 1)
  else bs.length
termination_by bs.length - i

/-- The place of the first closing of a comment in a text. -/
def commentClosing? : List Char → Option Nat
  | [] => none
  | '#' :: '}' :: _ => some 0
  | c :: rest => (commentClosing? rest).map (c.utf8Size + ·)

theorem min_le_blockEnd (bs : List UInt8) (quote : Option UInt8) (i : Nat) : min i bs.length ≤ blockEnd bs quote i := by
  fun_induction blockEnd bs quote i <;> omega

/-- The tags and the places of the blocks from the place `i` on. There is no answer if a piece that has to be cut out does
not begin or does not end between two characters. -/
def blocksAt (tags : List String) (cs : List Char) (i : Nat) : Option (List (String × Span)) :=
  if i + 1 < (bytes cs).length then
    if (bytes cs)[i]? = some '{'.toUInt8 ∧ (bytes cs)[i + 1]? = some '#'.toUInt8 then
      (dropBytes (i + 2) cs).bind fun rest =>
        match commentClosing? rest with
        | some n => blocksAt tags cs (i + 2 + n + 2)
        | none => blocksAt tags cs (bytes cs).length
    else if (bytes cs)[i]? = some '{'.toUInt8 ∧ (bytes cs)[i + 1]? = some '%'.toUInt8 then
      let stop := blockEnd (bytes cs) none (i + 2)
      (slice? cs ⟨i + 2, stop⟩).bind fun body =>
        let others := blocksAt tags cs stop
        match firstWord ('{' :: '%' :: body) with
        | some tag => if tags.contains tag then others.map ((tag, ⟨i, stop⟩) :: ·) else others
        | none => others
    else blocksAt tags cs (i + 1)
  else some []
termination_by (bytes cs).length - i
decreasing_by
  all_goals
    have := min_le_blockEnd (bytes cs) none (i + 2)
    omega

/-! ### The bytes of a text -/

variable {c d : Char} {cs rest : List Char}

theorem bytes_cons (c : Char) (cs : List Char) : bytes (c :: cs) = String.utf8EncodeChar c ++ bytes cs :=
  List.flatMap_cons

theorem bytes_append (as bs : List Char) : bytes (as ++ bs) = bytes as ++ bytes bs :=
  List.flatMap_append

theorem length_bytes (cs : List Char) : (bytes cs).length = byteLength cs := by
  induction cs with
  | nil => rfl
  | cons c cs ih => rw [bytes_cons, List.length_append, String.length_utf8EncodeChar, ih, byteLength_cons]

theorem drop_bytes_append (as bs : List Char) : (bytes (as ++ bs)).drop (byteLength as) = bytes bs := by
  rw [bytes_append, ← length_bytes, List.drop_left]

/-- An ASCII character is at a place if its byte is. -/
theorem head?_bytes_iff (hd : d.toNat < 128) (cs : List Char) :
    (bytes cs).head? = some d.toUInt8 ↔ cs.head? = some d := by
  cases cs with
  | nil => simp [bytes]
  | cons c cs =>
    rw [bytes_cons, List.head?_cons, Option.some.injEq]
    rcases Nat.lt_or_ge c.toNat 128 with hc | hc
    · rw [utf8EncodeChar_ascii hc, List.cons_append, List.head?_cons, Option.some.injEq, toUInt8_inj hc hd]
    · obtain ⟨b, bs, hbs⟩ := List.exists_cons_of_ne_nil (String.utf8EncodeChar_ne_nil (c := c))
      have hb := le_of_mem_utf8EncodeChar hc (hbs ▸ List.mem_cons_self)
      rw [hbs, List.cons_append, List.head?_cons, Option.some.injEq]
      constructor
      · rintro rfl
        rw [toNat_toUInt8 hd] at hb
        omega
      · rintro rfl
        omega

/-! ### The end of a block -/

section

variable {bs as more : List UInt8} {b : UInt8} {quote : Option Char} {i : Nat}

/-- If a quote is open, it is one of the two. -/
def IsQuote (quote : Option Char) : Prop :=
  ∀ q ∈ quote, q = '"' ∨ q = '\''

theorem IsQuote.toNat_lt {q : Char} (h : IsQuote (some q)) : q.toNat < 128 := by
  rcases h q rfl with rfl | rfl <;> decide

theorem IsQuote.next (h : IsQuote quote) (c : Char) : IsQuote (nextQuote '"' '\'' quote c) := by
  intro q hq
  unfold nextQuote at hq
  cases quote with
  | some p =>
    dsimp only at hq
    split at hq
    · cases hq
    · exact h q hq
  | none =>
    dsimp only at hq
    split at hq
    · next hc =>
      cases hq
      exact hc
    · cases hq

/-- On an ASCII character and on its byte the quotes change alike. -/
theorem nextQuote_toUInt8 (hquote : IsQuote quote) (hc : c.toNat < 128) :
    nextQuote '"'.toUInt8 '\''.toUInt8 (quote.map Char.toUInt8) c.toUInt8 =
      (nextQuote '"' '\'' quote c).map Char.toUInt8 := by
  cases quote with
  | some q =>
    simp only [nextQuote, Option.map_some, toUInt8_inj hc hquote.toNat_lt]
    split <;> rfl
  | none =>
    have hdouble : c.toUInt8 = '"'.toUInt8 ↔ c = '"' := toUInt8_inj hc (by decide)
    have hsingle : c.toUInt8 = '\''.toUInt8 ↔ c = '\'' := toUInt8_inj hc (by decide)
    simp only [nextQuote, Option.map_none, hdouble, hsingle]
    split <;> rfl

/-- On other characters and on their bytes they do not change. -/
theorem nextQuote_eq_self (hquote : IsQuote quote) (hc : 128 ≤ c.toNat) : nextQuote '"' '\'' quote c = quote := by
  have hne {d : Char} (hd : d.toNat < 128) : c ≠ d := by
    rintro rfl
    omega
  cases quote with
  | some q => exact if_neg (hne hquote.toNat_lt)
  | none => exact if_neg (not_or.mpr ⟨hne (by decide), hne (by decide)⟩)

theorem ne_toUInt8 (hb : 128 ≤ b.toNat) (hd : d.toNat < 128) : b ≠ d.toUInt8 := by
  rintro rfl
  rw [toNat_toUInt8 hd] at hb
  omega

theorem nextQuote_byte_eq_self (hquote : IsQuote quote) (hb : 128 ≤ b.toNat) :
    nextQuote '"'.toUInt8 '\''.toUInt8 (quote.map Char.toUInt8) b = quote.map Char.toUInt8 := by
  cases quote with
  | some q => exact if_neg (ne_toUInt8 hb hquote.toNat_lt)
  | none => exact if_neg (not_or.mpr ⟨ne_toUInt8 hb (by decide), ne_toUInt8 hb (by decide)⟩)

theorem drop_add_of_drop (as : List UInt8) (h : bs.drop i = as ++ more) : bs.drop (i + as.length) = more := by
  rw [← List.drop_drop, h, List.drop_left]

theorem blockEnd_cons (quote : Option UInt8) (h : bs.drop i = b :: more) : blockEnd bs quote i =
    if quote.isSome ∧ b = '\\'.toUInt8 then blockEnd bs quote (i + 2)
    else if quote = none ∧ b = '%'.toUInt8 ∧ more.head? = some '}'.toUInt8 then i + 2
    else blockEnd bs (nextQuote '"'.toUInt8 '\''.toUInt8 quote b) (i + 1) := by
  have hi : i < bs.length := by
    refine Nat.lt_of_not_le fun hle => ?_
    rw [List.drop_eq_nil_of_le hle] at h
    cases h
  rw [List.drop_eq_getElem_cons hi] at h
  obtain ⟨rfl, rfl⟩ := List.cons.inj h
  rw [blockEnd, dif_pos hi, List.head?_drop]

/-- Bytes of characters that are not ASCII are passed over. -/
theorem blockEnd_pass (has : ∀ b ∈ as, 128 ≤ b.toNat) (hquote : IsQuote quote) (h : bs.drop i = as ++ more) :
    blockEnd bs (quote.map Char.toUInt8) i = blockEnd bs (quote.map Char.toUInt8) (i + as.length) := by
  induction as generalizing i with
  | nil => rfl
  | cons b as ih =>
    obtain ⟨hb, has⟩ := List.forall_mem_cons.mp has
    have hrest : bs.drop (i + 1) = as ++ more := drop_add_of_drop [b] h
    have hlength : i + (b :: as).length = i + 1 + as.length := by
      rw [List.length_cons]
      omega
    rw [blockEnd_cons _ h, if_neg fun hescape => ne_toUInt8 hb (by decide) hescape.2,
      if_neg fun hclose => ne_toUInt8 hb (by decide) hclose.2.1, nextQuote_byte_eq_self hquote hb, ih has hrest, hlength]

/-- A character that neither escapes the next one nor closes the block. -/
theorem blockEnd_char (hquote : IsQuote quote) (h : bs.drop i = bytes (c :: rest)) (hescape : ¬ (quote.isSome ∧ c = '\\'))
    (hclose : ¬ (quote = none ∧ c = '%' ∧ rest.head? = some '}')) : blockEnd bs (quote.map Char.toUInt8) i =
      blockEnd bs ((nextQuote '"' '\'' quote c).map Char.toUInt8) (i + c.utf8Size) := by
  rw [bytes_cons] at h
  rcases Nat.lt_or_ge c.toNat 128 with hc | hc
  · have hsize : 1 = c.utf8Size := by
      rw [← String.length_utf8EncodeChar, utf8EncodeChar_ascii hc, List.length_singleton]
    rw [utf8EncodeChar_ascii hc, List.singleton_append] at h
    have hescape' : ¬ ((quote.map Char.toUInt8).isSome ∧ c.toUInt8 = '\\'.toUInt8) := by
      rwa [Option.isSome_map, toUInt8_inj hc (by decide)]
    have hclose' : ¬ (quote.map Char.toUInt8 = none ∧ c.toUInt8 = '%'.toUInt8 ∧ (bytes rest).head? = some '}'.toUInt8) := by
      rwa [Option.map_eq_none_iff, toUInt8_inj hc (by decide), head?_bytes_iff (by decide)]
    rw [blockEnd_cons _ h, if_neg hescape', if_neg hclose', nextQuote_toUInt8 hquote hc, hsize]
  · rw [blockEnd_pass (fun b hb => le_of_mem_utf8EncodeChar hc hb) hquote h, nextQuote_eq_self hquote hc,
      String.length_utf8EncodeChar]

/-- Behind a backslash a whole character is passed over, although only its first byte is jumped over. -/
theorem blockEnd_escape {q : Char} (hquote : IsQuote (some q)) (h : bs.drop i = bytes ('\\' :: d :: rest)) :
    blockEnd bs (some q.toUInt8) i = blockEnd bs (some q.toUInt8) (i + 1 + d.utf8Size) := by
  obtain ⟨b, as, hd⟩ := List.exists_cons_of_ne_nil (String.utf8EncodeChar_ne_nil (c := d))
  have hsize : as.length + 1 = d.utf8Size := by rw [← String.length_utf8EncodeChar, hd, List.length_cons]
  rw [bytes_cons, bytes_cons, utf8EncodeChar_ascii (by decide), hd] at h
  have has : ∀ a ∈ as, 128 ≤ a.toNat := by
    intro a ha
    rcases Nat.lt_or_ge d.toNat 128 with hascii | hother
    · rw [utf8EncodeChar_ascii hascii] at hd
      obtain ⟨-, rfl⟩ := List.cons.inj hd
      cases ha
    · exact le_of_mem_utf8EncodeChar hother (hd ▸ List.mem_cons_of_mem b ha)
  have hrest : bs.drop (i + 2) = as ++ bytes rest := drop_add_of_drop ['\\'.toUInt8, b] h
  have hpass := blockEnd_pass has hquote hrest
  have hplace : i + 2 + as.length = i + 1 + d.utf8Size := by omega
  rw [blockEnd_cons _ h, if_pos ⟨rfl, rfl⟩, ← hplace]
  exact hpass

theorem blockEnd_of_length_le (quote : Option UInt8) (h : bs.length ≤ i) : blockEnd bs quote i = bs.length := by
  rw [blockEnd, dif_neg (Nat.not_lt_of_le h)]

theorem drop_utf8Size (h : bs.drop i = bytes (c :: rest)) : bs.drop (i + c.utf8Size) = bytes rest := by
  rw [← String.length_utf8EncodeChar]
  exact drop_add_of_drop _ h

/-- The two scans find the same end of a block. -/
theorem blockEnd_eq (hquote : IsQuote quote) (h : bs.drop i = bytes cs) (hlength : bs.length = i + byteLength cs) :
    blockEnd bs (quote.map Char.toUInt8) i = i + byteLength (cs.take (blockLength quote cs)) := by
  fun_induction blockLength quote cs generalizing i with
  | case1 quote =>
    have hend : bs.length = i := hlength
    rw [blockEnd_of_length_le _ (Nat.le_of_eq hend), hend, List.take_zero]
    rfl
  | case2 q =>
    have hend : bs.length = i + 1 := hlength
    rw [blockEnd_cons _ h, if_pos ⟨rfl, rfl⟩, blockEnd_of_length_le _ (by omega), hend]
    rfl
  | case3 q c rest ih =>
    have hrest := drop_utf8Size (drop_utf8Size h)
    have hplace : i + '\\'.utf8Size + c.utf8Size = i + 1 + c.utf8Size := rfl
    rw [byteLength_cons, byteLength_cons] at hlength
    have hnext := ih hquote hrest (by omega)
    rw [Option.map_some, blockEnd_escape hquote h, ← hplace, ← Option.map_some, hnext, List.take_succ_cons,
      List.take_succ_cons, byteLength_cons, byteLength_cons]
    omega
  | case4 c rest q hc ih =>
    have hrest := drop_utf8Size h
    rw [byteLength_cons] at hlength
    have hnext := ih (hquote.next c) hrest (by omega)
    rw [blockEnd_char hquote h (fun hescape => hc hescape.2) (fun hclose => by cases hclose.1)]
    refine hnext.trans ?_
    rw [List.take_succ_cons, byteLength_cons]
    omega
  | case5 c rest hclose =>
    simp only [Bool.and_eq_true, decide_eq_true_eq] at hclose
    obtain ⟨more, rfl⟩ := List.head?_eq_some_iff.mp hclose.2
    obtain rfl := hclose.1
    rw [Option.map_none, blockEnd_cons none h, if_neg (fun hescape => by cases hescape.1), if_pos ⟨rfl, rfl, rfl⟩]
    rfl
  | case6 c rest hopen ih =>
    have hrest := drop_utf8Size h
    have hclose : ¬ ((none : Option Char) = none ∧ c = '%' ∧ rest.head? = some '}') := by
      rintro ⟨-, hclose⟩
      exact hopen (by simpa using hclose)
    have hquotes : nextQuote '"' '\'' none c = if (c = '"' || c = '\'') = true then some c else none := by
      simp only [nextQuote, Bool.or_eq_true, decide_eq_true_eq]
    rw [byteLength_cons] at hlength
    have hnext := ih (hquotes ▸ hquote.next c) hrest (by omega)
    rw [blockEnd_char hquote h (fun hescape => by cases hescape.1) hclose, hquotes, hnext, List.take_succ_cons,
      byteLength_cons]
    omega

end

/-! ### From one place to the next -/

section

variable {tags : List String} {before body : List Char} {i : Nat}

theorem getElem?_bytes_iff (hd : d.toNat < 128) (before rest : List Char) :
    (bytes (before ++ rest))[byteLength before]? = some d.toUInt8 ↔ rest.head? = some d := by
  rw [← List.head?_drop, drop_bytes_append, head?_bytes_iff hd]

theorem getElem?_bytes_succ_iff (hd : d.toNat < 128) (before rest : List Char) :
    (bytes (before ++ '{' :: rest))[byteLength before + 1]? = some d.toUInt8 ↔ rest.head? = some d := by
  have hplace : byteLength before + 1 = byteLength (before ++ ['{']) := by rw [byteLength_append]; rfl
  have htext : before ++ '{' :: rest = before ++ ['{'] ++ rest := by rw [List.append_assoc, List.singleton_append]
  rw [hplace, htext, getElem?_bytes_iff hd]

theorem blocksAt_next (h : (bytes cs)[i]? = some '{'.toUInt8 →
    (bytes cs)[i + 1]? ≠ some '#'.toUInt8 ∧ (bytes cs)[i + 1]? ≠ some '%'.toUInt8) :
    blocksAt tags cs i = blocksAt tags cs (i + 1) := by
  rw [blocksAt]
  split
  · rw [if_neg fun hopen => (h hopen.1).1 hopen.2, if_neg fun hopen => (h hopen.1).2 hopen.2]
  · next hend => rw [blocksAt, if_neg (by omega)]

/-- Bytes that begin nothing are passed over. -/
theorem blocksAt_pass {as more : List UInt8} (has : '{'.toUInt8 ∉ as) (h : (bytes cs).drop i = as ++ more) :
    blocksAt tags cs i = blocksAt tags cs (i + as.length) := by
  induction as generalizing i with
  | nil => rfl
  | cons b as ih =>
    rw [List.mem_cons, not_or] at has
    have hrest : (bytes cs).drop (i + 1) = as ++ more := drop_add_of_drop [b] h
    have hbyte : (bytes cs)[i]? = some b := by rw [← List.head?_drop, h]; rfl
    have hlength : i + (b :: as).length = i + 1 + as.length := by
      rw [List.length_cons]
      omega
    rw [blocksAt_next, ih has.2 hrest, hlength]
    intro hbrace
    rw [hbyte, Option.some.injEq] at hbrace
    exact absurd hbrace.symm has.1

theorem blocksAt_char (hopens : ¬ Opens (c :: rest)) : blocksAt tags (before ++ c :: rest) (byteLength before) =
    blocksAt tags (before ++ c :: rest) (byteLength before + c.utf8Size) := by
  have hdrop := drop_bytes_append before (c :: rest)
  by_cases hc : c = '{'
  · subst hc
    have hnext {d : Char} (hd : d.toNat < 128) (hrest : rest.head? ≠ some d) :
        (bytes (before ++ '{' :: rest))[byteLength before + 1]? ≠ some d.toUInt8 := by
      rw [Ne, getElem?_bytes_succ_iff hd]
      exact hrest
    refine blocksAt_next fun _ => ⟨hnext (by decide) fun hhead => ?_, hnext (by decide) fun hhead => ?_⟩
    · obtain ⟨body, rfl⟩ := List.head?_eq_some_iff.mp hhead
      exact hopens (.inl ⟨body, rfl⟩)
    · obtain ⟨body, rfl⟩ := List.head?_eq_some_iff.mp hhead
      exact hopens (.inr ⟨body, rfl⟩)
  · rw [bytes_cons] at hdrop
    rw [blocksAt_pass ?_ hdrop, String.length_utf8EncodeChar]
    intro hbrace
    rcases Nat.lt_or_ge c.toNat 128 with hascii | hother
    · rw [utf8EncodeChar_ascii hascii, List.mem_singleton, toUInt8_inj (by decide) hascii] at hbrace
      exact hc hbrace.symm
    · exact ne_toUInt8 (le_of_mem_utf8EncodeChar hother hbrace) (by decide) rfl

theorem commentClosing?_cases (body : List Char) :
    (∃ n, commentClosing? body = some n ∧ byteLength (body.take (commentLength body)) = n + 2) ∨
      commentClosing? body = none ∧ commentLength body = body.length := by
  fun_induction commentLength body with
  | case1 => exact .inr ⟨rfl, rfl⟩
  | case2 rest => exact .inl ⟨0, rfl, rfl⟩
  | case3 c rest hclose ih =>
    rw [commentClosing?.eq_3 c rest hclose]
    rcases ih with ⟨n, hn, hlength⟩ | ⟨hnone, hlength⟩
    · refine .inl ⟨c.utf8Size + n, by rw [hn, Option.map_some], ?_⟩
      rw [List.take_succ_cons, byteLength_cons, hlength, Nat.add_assoc]
    · exact .inr ⟨by rw [hnone, Option.map_none], by rw [hlength, List.length_cons]⟩

/-- What is seen at an opening. -/
theorem opening_bytes (c : Char) (before body : List Char) :
    let cs := before ++ '{' :: c :: body
    let i := byteLength before
    i + 1 < (bytes cs).length ∧ (bytes cs)[i]? = some '{'.toUInt8 ∧
      (∀ d : Char, d.toNat < 128 → ((bytes cs)[i + 1]? = some d.toUInt8 ↔ c = d)) := by
  refine ⟨?_, (getElem?_bytes_iff (by decide) before _).mpr rfl, fun d hd => ?_⟩
  · have hpos := c.utf8Size_pos
    have hbrace : '{'.utf8Size = 1 := rfl
    rw [length_bytes, byteLength_append, byteLength_cons, byteLength_cons]
    omega
  · rw [getElem?_bytes_succ_iff hd, List.head?_cons, Option.some.injEq]

theorem byteLength_opening (hc : c.utf8Size = 1) (before text : List Char) :
    byteLength (before ++ '{' :: c :: text) = byteLength before + 2 + byteLength text := by
  have hbrace : '{'.utf8Size = 1 := rfl
  rw [byteLength_append, byteLength_cons, byteLength_cons, hc, hbrace]
  omega

/-- After a comment the scan of the bytes goes on where the scan of the characters does. -/
theorem blocksAt_comment (tags : List String) (before body : List Char) :
    blocksAt tags (before ++ '{' :: '#' :: body) (byteLength before) =
      blocksAt tags (before ++ '{' :: '#' :: body)
        (byteLength (before ++ '{' :: '#' :: body.take (commentLength body))) := by
  obtain ⟨hi, hbrace, hsign⟩ := opening_bytes '#' before body
  have hrest : dropBytes (byteLength before + 2) (before ++ '{' :: '#' :: body) = some body :=
    dropBytes_eq_some_iff.mpr ⟨before ++ ['{', '#'], by simp, (byteLength_opening rfl before []).symm⟩
  rw [blocksAt, if_pos hi, if_pos ⟨hbrace, (hsign '#' (by decide)).mpr rfl⟩, hrest, Option.bind_some,
    byteLength_opening rfl]
  rcases commentClosing?_cases body with ⟨n, hn, hlength⟩ | ⟨hnone, hlength⟩
  · rw [hn, hlength]
    rfl
  · rw [hnone, hlength, List.take_length, length_bytes, byteLength_opening rfl]

/-- A block that the scan of the bytes finds is the one that the scan of the characters finds, and it can be cut out. -/
theorem blocksAt_block (tags : List String) (before body : List Char) :
    blocksAt tags (before ++ '{' :: '%' :: body) (byteLength before) =
      let text := '{' :: '%' :: body.take (blockLength none body)
      let others := blocksAt tags (before ++ '{' :: '%' :: body) (byteLength (before ++ text))
      match firstWord text with
      | some tag =>
        if tags.contains tag then others.map ((tag, ⟨byteLength before, byteLength (before ++ text)⟩) :: ·) else others
      | none => others := by
  obtain ⟨hi, hbrace, hsign⟩ := opening_bytes '%' before body
  have hdrop : (bytes (before ++ '{' :: '%' :: body)).drop (byteLength before + 2) = bytes body := by
    have := drop_bytes_append (before ++ ['{', '%']) body
    rwa [byteLength_opening rfl, List.append_assoc] at this
  have hlength : (bytes (before ++ '{' :: '%' :: body)).length = byteLength before + 2 + byteLength body := by
    rw [length_bytes, byteLength_opening rfl]
  have hquote : IsQuote none := by
    intro q hq
    cases hq
  have hstop := blockEnd_eq hquote hdrop hlength
  rw [Option.map_none, ← byteLength_opening (c := '%') rfl] at hstop
  have hslice : slice? (before ++ '{' :: '%' :: body)
      ⟨byteLength before + 2, byteLength (before ++ '{' :: '%' :: body.take (blockLength none body))⟩ =
        some (body.take (blockLength none body)) := by
    refine slice?_eq_some_iff.mpr ⟨before ++ ['{', '%'], body.drop (blockLength none body), by simp, ?_⟩
    have hstart : byteLength (before ++ ['{', '%']) = byteLength before + 2 := byteLength_opening rfl before []
    rw [hstart, List.append_assoc]
    rfl
  rw [blocksAt, if_pos hi, if_neg fun hopen => absurd ((hsign '#' (by decide)).mp hopen.2) (by decide),
    if_pos ⟨hbrace, (hsign '%' (by decide)).mpr rfl⟩, hstop]
  dsimp only
  rw [hslice]
  rfl

end

/-- The scan of the bytes finds the same blocks as the scan of the characters, and each piece that it cuts out begins and
ends between two characters. -/
theorem blocksAt_eq (tags : List String) (before : List Char) : ∀ rest : List Char,
    blocksAt tags (before ++ rest) (byteLength before) =
      some ((blocksFrom tags (byteLength before) (pieces rest)).map fun b => (b.tag, b.span))
  | [] => by
    rw [blocksAt, if_neg (by rw [List.append_nil, length_bytes]; omega), pieces]
    rfl
  | c :: rest => by
    by_cases hopens : Opens (c :: rest)
    · rcases hopens with ⟨body, heq⟩ | ⟨body, heq⟩
      · have hshorter : body.length + 2 = rest.length + 1 := congrArg List.length heq
        rw [← heq]
        have hrest := blocksAt_eq tags (before ++ '{' :: '#' :: body.take (commentLength body))
          (body.drop (commentLength body))
        rw [List.append_assoc, List.cons_append, List.cons_append, List.take_append_drop] at hrest
        rw [List.cons_append, List.cons_append, List.nil_append, blocksAt_comment, hrest, pieces_comment,
          blocksFrom_cons_eq_append, byteLength_append]
        rfl
      · have hshorter : body.length + 2 = rest.length + 1 := congrArg List.length heq
        rw [← heq]
        have hrest := blocksAt_eq tags (before ++ '{' :: '%' :: body.take (blockLength none body))
          (body.drop (blockLength none body))
        rw [List.append_assoc, List.cons_append, List.cons_append, List.take_append_drop] at hrest
        rw [List.cons_append, List.cons_append, List.nil_append, blocksAt_block, pieces_block]
        dsimp only
        rw [hrest, blocksFrom_cons_eq_append, byteLength_append, blocksFrom_singleton]
        cases firstWord ('{' :: '%' :: body.take (blockLength none body)) with
        | none => rfl
        | some tag =>
          dsimp only
          split <;> rfl
    · have hrest := blocksAt_eq tags (before ++ [c]) rest
      have hplace : byteLength (before ++ [c]) = byteLength before + c.utf8Size := by rw [byteLength_append]; rfl
      have htext : blocksFrom tags (byteLength before) (pieces ([c] ++ rest)) =
          blocksFrom tags (byteLength before + c.utf8Size) (pieces rest) := by
        refine blocksFrom_text (fun n hn => ?_) _
        rw [Nat.lt_one_iff.mp hn]
        exact hopens
      rw [List.append_assoc, List.singleton_append, hplace] at hrest
      rw [blocksAt_char hopens, hrest]
      exact congrArg (fun bs => some (bs.map fun b => (b.tag, b.span))) htext.symm
termination_by rest => rest.length
decreasing_by all_goals simp only [List.length_drop, List.length_cons]; omega

end Template

end Inclusion
