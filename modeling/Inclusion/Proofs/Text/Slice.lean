import Inclusion.Text.Span
/-!
# The piece of a text at a place

Places are counted in bytes and texts are lists of characters, so not every place has a piece: it has to begin and to end
between two characters. `slice?` cuts the piece out if it can, and what it cuts out is all that lies between the two
places (`slice?_eq_some_iff`).
-/

namespace Inclusion

/-- What comes after the first `n` bytes of a text, if these are whole characters. -/
def dropBytes : Nat → List Char → Option (List Char)
  | 0, cs => some cs
  | _ + 1, [] => none
  | n + 1, c :: cs => if c.utf8Size ≤ n + 1 then dropBytes (n + 1 - c.utf8Size) cs else none

/-- The first `n` bytes of a text, if these are whole characters. -/
def takeBytes : Nat → List Char → Option (List Char)
  | 0, _ => some []
  | _ + 1, [] => none
  | n + 1, c :: cs => if c.utf8Size ≤ n + 1 then (takeBytes (n + 1 - c.utf8Size) cs).map (c :: ·) else none

/-- The piece of a text at a place, if the place begins and ends between characters and runs forward. -/
def slice? (cs : List Char) (s : Span) : Option (List Char) :=
  if s.start ≤ s.stop then (dropBytes s.start cs).bind (takeBytes (s.stop - s.start)) else none

theorem dropBytes_length (before rest : List Char) : dropBytes (byteLength before) (before ++ rest) = some rest := by
  induction before with
  | nil => rw [byteLength_nil, List.nil_append, dropBytes]
  | cons c before ih =>
    have hpos := c.utf8Size_pos
    obtain ⟨n, hn⟩ : ∃ n, c.utf8Size + byteLength before = n + 1 := ⟨c.utf8Size + byteLength before - 1, by omega⟩
    have hleft : n + 1 - c.utf8Size = byteLength before := by omega
    rw [byteLength_cons, List.cons_append, hn, dropBytes, if_pos (by omega), hleft, ih]

theorem takeBytes_length (text after : List Char) : takeBytes (byteLength text) (text ++ after) = some text := by
  induction text with
  | nil => rw [byteLength_nil, takeBytes]
  | cons c text ih =>
    have hpos := c.utf8Size_pos
    obtain ⟨n, hn⟩ : ∃ n, c.utf8Size + byteLength text = n + 1 := ⟨c.utf8Size + byteLength text - 1, by omega⟩
    have hleft : n + 1 - c.utf8Size = byteLength text := by omega
    rw [byteLength_cons, List.cons_append, hn, takeBytes, if_pos (by omega), hleft, ih, Option.map_some]

theorem dropBytes_eq_some_iff {n : Nat} {cs rest : List Char} :
    dropBytes n cs = some rest ↔ ∃ before, cs = before ++ rest ∧ n = byteLength before := by
  constructor
  · intro h
    fun_induction dropBytes n cs with
    | case1 cs =>
      cases h
      exact ⟨[], rfl, rfl⟩
    | case2 => cases h
    | case3 n c cs hle ih =>
      obtain ⟨before, rfl, hlength⟩ := ih h
      refine ⟨c :: before, rfl, ?_⟩
      rw [byteLength_cons]
      omega
    | case4 => cases h
  · rintro ⟨before, rfl, rfl⟩
    exact dropBytes_length before rest

theorem takeBytes_eq_some_iff {n : Nat} {cs text : List Char} :
    takeBytes n cs = some text ↔ ∃ after, cs = text ++ after ∧ n = byteLength text := by
  constructor
  · intro h
    fun_induction takeBytes n cs generalizing text with
    | case1 cs =>
      cases h
      exact ⟨cs, rfl, rfl⟩
    | case2 => cases h
    | case3 n c cs hle ih =>
      obtain ⟨text, htext, rfl⟩ := Option.map_eq_some_iff.mp h
      obtain ⟨after, rfl, hlength⟩ := ih htext
      refine ⟨after, rfl, ?_⟩
      rw [byteLength_cons]
      omega
    | case4 => cases h
  · rintro ⟨after, rfl, rfl⟩
    exact takeBytes_length text after

theorem slice?_eq_some_iff {cs text : List Char} {s : Span} : slice? cs s = some text ↔
    ∃ before after, cs = before ++ text ++ after ∧ s = ⟨byteLength before, byteLength (before ++ text)⟩ := by
  rw [slice?]
  constructor
  · intro h
    split at h
    · next hle =>
      obtain ⟨rest, hrest, htext⟩ := Option.bind_eq_some_iff.mp h
      obtain ⟨before, rfl, hstart⟩ := dropBytes_eq_some_iff.mp hrest
      obtain ⟨after, rfl, hlength⟩ := takeBytes_eq_some_iff.mp htext
      refine ⟨before, after, by rw [List.append_assoc], ?_⟩
      have hstop : s.stop = byteLength (before ++ text) := by
        rw [byteLength_append]
        omega
      rw [← hstart, ← hstop]
    · cases h
  · rintro ⟨before, after, rfl, rfl⟩
    have hle : byteLength before ≤ byteLength (before ++ text) := by
      rw [byteLength_append]
      exact Nat.le_add_right _ _
    have hlength : byteLength (before ++ text) - byteLength before = byteLength text := by
      rw [byteLength_append]
      omega
    dsimp only
    rw [if_pos hle, List.append_assoc, dropBytes_length, Option.bind_some, hlength, takeBytes_length]

end Inclusion
