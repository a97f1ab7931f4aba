import Inclusion.Compiler
/-!
# The opening of a block

A minus or a tilde can stand at the opening of a block. The lexer takes it into the token of the opening, the scan
for blocks drops it before the first word, and so does the compiler when it looks for the tag.
-/

namespace Inclusion

open Template (firstWord)

/-- The minus or tilde at the opening of a block. -/
def signOf : List Char → List Char
  | '-' :: _ => ['-']
  | '~' :: _ => ['~']
  | _ => []

/-- The text of a block after its opening. -/
def afterSign (r : List Char) : List Char :=
  r.drop (signOf r).length

theorem signOf_append_afterSign (r : List Char) : signOf r ++ afterSign r = r := by
  unfold afterSign signOf
  split <;> rfl

theorem signOf_cases (r : List Char) : signOf r = [] ∨ signOf r = ['-'] ∨ signOf r = ['~'] := by
  unfold signOf
  split <;> simp

theorem munch_opening (r : List Char) :
    Lexer.munch '{' ('%' :: r) = (.token .blockOpen, (signOf r).length + 1) := by
  unfold signOf
  split <;> simp [Lexer.munch, isBlank, Lexer.isNameStart]

theorem pieces_opening (r : List Char) : Lexer.pieces ('{' :: '%' :: r) =
    ⟨.token .blockOpen, '{' :: '%' :: signOf r⟩ :: Lexer.pieces (afterSign r) := by
  rw [Lexer.pieces_cons, munch_opening]
  have htake : r.take (signOf r).length = signOf r := by
    conv => lhs; arg 2; rw [← signOf_append_afterSign r]
    exact List.take_left
  rw [List.take_succ_cons, htake, List.drop_succ_cons]
  rfl

theorem eq_of_pieces_afterSign {r : List Char} {ps : List Piece} (h : Lexer.pieces (afterSign r) = ps) :
    r = signOf r ++ ps.flatMap Piece.text := by
  rw [← h, Lexer.flatMap_text_pieces, signOf_append_afterSign]

theorem firstWord_opening (r : List Char) : firstWord ('{' :: '%' :: r) =
    match (trimStart (afterSign r)).takeWhile isWordChar with
    | [] => none
    | word => some (String.ofList word) := by
  have hbody : (match r with | '-' :: rest | '~' :: rest => rest | _ => r) = afterSign r := by
    unfold afterSign signOf
    split <;> rfl
  rw [← hbody]
  rfl

/-- The compiler looks for the tag of a block after the opening and its sign. -/
theorem leadingTag_opening (offset : Nat) (r : List Char) : (leadingTag offset ('{' :: '%' :: r)).1 =
    String.ofList ((trimStart (afterSign r)).takeWhile isWordChar) := by
  have htrim : trimStart ('{' :: '%' :: r) = '{' :: '%' :: r := by
    rw [trimStart, List.dropWhile_cons_of_neg (by decide)]
  unfold leadingTag
  rw [htrim]
  refine congrArg (fun body : List Char => String.ofList (body.takeWhile isWordChar)) ?_
  unfold afterSign signOf
  split
  · next heq =>
    cases heq
    rfl
  · next heq =>
    cases heq
    rfl
  · next hminus htilde heq =>
    cases heq
    split
    · next rest => exact absurd rfl (hminus rest)
    · next rest => exact absurd rfl (htilde rest)
    · rfl
  · next hother => exact absurd rfl (hother r)

/-- The compiler finds the tag of a block where the scan for blocks finds it. -/
theorem leadingTag_of_firstWord {r : List Char} {tag : String} (h : firstWord ('{' :: '%' :: r) = some tag)
    (offset : Nat) : (leadingTag offset ('{' :: '%' :: r)).1 = tag := by
  rw [firstWord_opening] at h
  rw [leadingTag_opening]
  split at h
  · cases h
  · exact Option.some.inj h

end Inclusion
