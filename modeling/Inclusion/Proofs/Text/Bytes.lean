import Inclusion.Text.OsString
import Mathlib.Data.List.Basic
/-!
# Texts and bytes

The byte of an ASCII character is the byte of no other character. What is shown for a string of bytes is related to it
by `Shows`: each character is shown for its own bytes, and a replacement character for bytes that are none. So the bytes
of a text are shown as the text (`chars_ofText`), bytes that are shown without a replacement character are those of a
text, and a slash is only shown where there is one.
-/

namespace Inclusion

/-! ### The bytes of a character -/

section Characters

variable {c d : Char}

theorem utf8EncodeChar_ascii (hc : c.toNat < 128) : String.utf8EncodeChar c = [c.toUInt8] := by
  have hle : c.val ≤ 127 := Nat.le_of_lt_succ hc
  exact String.utf8EncodeChar_eq_singleton (Char.utf8Size_eq_one_iff.mpr hle)

theorem le_of_mem_utf8EncodeChar (hc : 128 ≤ c.toNat) {b : UInt8} (hb : b ∈ String.utf8EncodeChar c) : 128 ≤ b.toNat := by
  have hle : ¬ c.val.toNat ≤ 127 := Nat.not_le_of_lt hc
  simp only [String.utf8EncodeChar, if_neg hle] at hb
  split at hb
  · simp only [List.mem_cons, List.not_mem_nil, or_false] at hb
    rcases hb with rfl | rfl <;> simp only [UInt8.toNat_ofNat'] <;> omega
  split at hb
  · simp only [List.mem_cons, List.not_mem_nil, or_false] at hb
    rcases hb with rfl | rfl | rfl <;> simp only [UInt8.toNat_ofNat'] <;> omega
  · simp only [List.mem_cons, List.not_mem_nil, or_false] at hb
    rcases hb with rfl | rfl | rfl | rfl <;> simp only [UInt8.toNat_ofNat'] <;> omega

theorem toNat_toUInt8 (hc : c.toNat < 128) : c.toUInt8.toNat = c.toNat := by
  rw [Char.toUInt8, UInt32.toNat_toUInt8]
  exact Nat.mod_eq_of_lt (Nat.lt_of_lt_of_le hc (by decide))

theorem toUInt8_inj (hc : c.toNat < 128) (hd : d.toNat < 128) : c.toUInt8 = d.toUInt8 ↔ c = d := by
  constructor
  · intro h
    have hnat := congrArg UInt8.toNat h
    rw [toNat_toUInt8 hc, toNat_toUInt8 hd] at hnat
    exact Char.toNat_inj.mp hnat
  · exact congrArg Char.toUInt8

/-- The byte of an ASCII character is in the bytes of that character only. -/
theorem toUInt8_mem_utf8EncodeChar_iff (hd : d.toNat < 128) : d.toUInt8 ∈ String.utf8EncodeChar c ↔ c = d := by
  rcases Nat.lt_or_ge c.toNat 128 with hc | hc
  · rw [utf8EncodeChar_ascii hc, List.mem_singleton, toUInt8_inj hd hc, eq_comm]
  · constructor
    · intro hmem
      have hle := le_of_mem_utf8EncodeChar hc hmem
      rw [toNat_toUInt8 hd] at hle
      omega
    · rintro rfl
      omega

end Characters

namespace OsString

variable {bs rest : OsString} {c : Char} {cs : List Char} {s : String}

/-! ### The character in front -/

theorem firstChar?_utf8EncodeChar (c : Char) (rest : OsString) : firstChar? (String.utf8EncodeChar c ++ rest) = some c := by
  have htake : (String.utf8EncodeChar c ++ rest).take 4 = String.utf8EncodeChar c ++ rest.take (4 - c.utf8Size) := by
    rw [List.take_append, String.length_utf8EncodeChar,
      List.take_of_length_le (String.length_utf8EncodeChar c ▸ c.utf8Size_le_four)]
  rw [firstChar?, htake, List.toByteArray_append]
  exact ByteArray.utf8DecodeChar?_utf8EncodeChar_append

theorem exists_append_of_firstChar? (h : firstChar? bs = some c) : ∃ rest, bs = String.utf8EncodeChar c ++ rest := by
  obtain ⟨l, hl⟩ := ByteArray.exists_of_utf8DecodeChar?_eq_some h
  have htake : bs.take 4 = String.utf8EncodeChar c ++ l.data.toList := by
    simpa using congrArg (fun bytes : ByteArray => bytes.data.toList) hl
  refine ⟨l.data.toList ++ bs.drop 4, ?_⟩
  rw [← List.append_assoc, ← htake, List.take_append_drop]

theorem charsAfter_eq (skip : Nat) (bs : OsString) : charsAfter skip bs = chars (bs.drop skip) := by
  induction bs generalizing skip with
  | nil =>
    rw [List.drop_nil]
    cases skip <;> rfl
  | cons b bs ih =>
    cases skip with
    | zero => rfl
    | succ skip => exact ih skip

theorem chars_utf8EncodeChar_append (c : Char) (rest : OsString) :
    chars (String.utf8EncodeChar c ++ rest) = c :: chars rest := by
  obtain ⟨b, bs, hbs⟩ := List.exists_cons_of_ne_nil (String.utf8EncodeChar_ne_nil (c := c))
  have hfirst := firstChar?_utf8EncodeChar c rest
  have hlength : c.utf8Size - 1 = bs.length := by
    rw [← String.length_utf8EncodeChar, hbs]
    rfl
  rw [hbs, List.cons_append] at hfirst ⊢
  rw [chars, charsAfter, hfirst]
  dsimp only
  rw [charsAfter_eq, hlength, List.drop_left]

/-! ### What is shown -/

/-- The characters can be shown for the bytes. -/
inductive Shows : OsString → List Char → Prop
  | nil : Shows [] []
  | char (c : Char) {rest : OsString} {cs : List Char} (h : Shows rest cs) :
    Shows (String.utf8EncodeChar c ++ rest) (c :: cs)
  | replaced {part rest : OsString} {cs : List Char} (hne : part ≠ []) (h : Shows rest cs) :
    Shows (part ++ rest) ('\uFFFD' :: cs)

theorem shows_chars (bs : OsString) : Shows bs bs.chars := by
  induction hn : bs.length using Nat.strongRecOn generalizing bs with
  | ind n ih =>
    cases bs with
    | nil => exact .nil
    | cons b rest =>
      cases hfirst : firstChar? (b :: rest) with
      | some c =>
        obtain ⟨after, hafter⟩ := exists_append_of_firstChar? hfirst
        have hpos := c.utf8Size_pos
        have hlength := congrArg List.length hafter
        rw [hn, List.length_append, String.length_utf8EncodeChar] at hlength
        rw [hafter, chars_utf8EncodeChar_append]
        exact .char c (ih after.length (by omega) after rfl)
      | none =>
        rw [chars, charsAfter, hfirst]
        dsimp only
        rw [charsAfter_eq]
        have hsplit : b :: rest = (b :: rest.take (fitting (followers b) rest)) ++ rest.drop (fitting (followers b) rest) := by
          rw [List.cons_append, List.take_append_drop]
        have hlength : (rest.drop (fitting (followers b) rest)).length < n := by
          rw [← hn, List.length_drop, List.length_cons]
          omega
        have hrest := ih _ hlength _ rfl
        conv => arg 1; rw [hsplit]
        exact .replaced (List.cons_ne_nil _ _) hrest

theorem Shows.slash_mem (h : Shows bs cs) (hslash : '/' ∈ cs) : slash ∈ bs := by
  induction h with
  | nil => cases hslash
  | char c h ih =>
    rw [List.mem_append]
    cases List.mem_cons.mp hslash with
    | inl heq => exact .inl (heq ▸ List.mem_singleton.mpr rfl)
    | inr hmem => exact .inr (ih hmem)
  | replaced hne h ih =>
    cases List.mem_cons.mp hslash with
    | inl heq => cases heq
    | inr hmem => exact List.mem_append_right _ (ih hmem)

/-- Without a replacement character what is shown are the bytes. -/
theorem Shows.eq_of_not_mem (h : Shows bs cs) (hmem : '\uFFFD' ∉ cs) : bs = cs.flatMap String.utf8EncodeChar := by
  induction h with
  | nil => rfl
  | char c h ih => rw [List.flatMap_cons, ← ih fun hrest => hmem (List.mem_cons_of_mem _ hrest)]
  | replaced hne h ih => exact absurd List.mem_cons_self hmem

theorem chars_eq_nil_iff : bs.chars = [] ↔ bs = [] := by
  constructor
  · intro h
    have hshows := shows_chars bs
    rw [h] at hshows
    cases hshows
    rfl
  · rintro rfl
    rfl

/-- A dot is shown in front of a name that has one in front. -/
theorem head?_chars_eq_dot_iff : bs.chars.head? = some '.' ↔ bs.head? = some dot := by
  constructor
  · intro h
    have hshows := shows_chars bs
    obtain ⟨cs, hcs⟩ := List.head?_eq_some_iff.mp h
    rw [hcs] at hshows
    generalize hc : '.' :: cs = shown at hshows
    cases hshows with
    | nil => cases hc
    | char c hrest =>
      cases hc
      rfl
    | replaced hne hrest => cases hc
  · intro h
    obtain ⟨rest, rfl⟩ := List.head?_eq_some_iff.mp h
    rw [show dot :: rest = String.utf8EncodeChar '.' ++ rest from rfl, chars_utf8EncodeChar_append]
    rfl

/-! ### The bytes of a text -/

theorem chars_flatMap (cs : List Char) : chars (cs.flatMap String.utf8EncodeChar) = cs := by
  induction cs with
  | nil => rfl
  | cons c cs ih => rw [List.flatMap_cons, chars_utf8EncodeChar_append, ih]

theorem chars_ofText (s : String) : chars (ofText s) = s.toList :=
  chars_flatMap s.toList

@[simp] theorem display_ofText (s : String) : display (ofText s) = s := by
  rw [display, chars_ofText, String.ofList_toList]

theorem ofText_injective : Function.Injective ofText :=
  Function.LeftInverse.injective display_ofText

theorem ofText_append (s s' : String) : ofText (s ++ s') = ofText s ++ ofText s' := by
  rw [ofText, String.toList_append, List.flatMap_append]
  rfl

theorem ofText_eq_nil_iff : ofText s = [] ↔ s = "" := by
  rw [← chars_eq_nil_iff, chars_ofText, String.toList_eq_nil_iff]

theorem slash_mem_ofText_iff : slash ∈ ofText s ↔ '/' ∈ s.toList := by
  rw [ofText, List.mem_flatMap]
  constructor
  · rintro ⟨c, hc, hslash⟩
    rwa [← (toUInt8_mem_utf8EncodeChar_iff (d := '/') (by decide)).mp hslash]
  · intro h
    exact ⟨'/', h, List.mem_singleton.mpr rfl⟩

/-- Bytes are read as a text exactly if they are its bytes. -/
theorem text?_eq_some_iff : text? bs = some s ↔ bs = ofText s := by
  rw [text?]
  constructor
  · intro h
    split at h
    · next htext =>
      cases h
      exact htext.symm
    · cases h
  · rintro rfl
    rw [display_ofText, if_pos rfl]

end OsString

end Inclusion
