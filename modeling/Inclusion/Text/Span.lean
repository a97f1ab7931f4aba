/-!
# Places in a text

A place in a text is the number of UTF-8 bytes before it, and a piece of a text is the half-open range
between two places. A text that is taken apart is a list of characters, so a piece is cut out with
`take` and `drop`, and only its place is counted in bytes.
-/

namespace Inclusion

/-- The bytes from `start` up to, and without, `stop`. -/
structure Span where
  start : Nat
  stop : Nat
  deriving DecidableEq, Repr

namespace Span

/-- The same piece of a text with `n` bytes put before it. -/
def shift (s : Span) (n : Nat) : Span :=
  ⟨s.start + n, s.stop + n⟩

@[simp] theorem shift_zero (s : Span) : s.shift 0 = s := rfl

theorem shift_shift (s : Span) (m n : Nat) : (s.shift m).shift n = s.shift (m + n) := by
  simp [shift, Nat.add_assoc]

end Span

/-- The number of bytes that the characters take in UTF-8. -/
def byteLength : List Char → Nat
  | [] => 0
  | c :: cs => c.utf8Size + byteLength cs

@[simp] theorem byteLength_nil : byteLength [] = 0 := rfl

@[simp] theorem byteLength_cons (c : Char) (cs : List Char) :
    byteLength (c :: cs) = c.utf8Size + byteLength cs := rfl

@[simp] theorem byteLength_append (as bs : List Char) :
    byteLength (as ++ bs) = byteLength as + byteLength bs := by
  induction as with
  | nil => simp
  | cons c cs ih => simp [ih, Nat.add_assoc]

theorem length_le_byteLength (cs : List Char) : cs.length ≤ byteLength cs := by
  induction cs with
  | nil => simp
  | cons c cs ih =>
    have := c.utf8Size_pos
    simp only [List.length_cons, byteLength_cons]
    omega

end Inclusion
