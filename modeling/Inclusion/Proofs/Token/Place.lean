import Inclusion.Proofs.Token.Lexer
/-!
# Where the tokens of a text are

The place of a token is that of a piece of the text, so it begins and ends between two characters; the places of the
tokens follow one another.
-/

namespace Inclusion

/-- A place between two characters of a text, or at one of its ends. -/
def OnBoundary (cs : List Char) (n : Nat) : Prop :=
  ∃ before after, cs = before ++ after ∧ n = byteLength before

theorem OnBoundary.le {cs : List Char} {n : Nat} (h : OnBoundary cs n) : n ≤ byteLength cs := by
  obtain ⟨before, after, rfl, rfl⟩ := h
  rw [byteLength_append]
  exact Nat.le_add_right _ _

theorem onBoundary_length (cs : List Char) : OnBoundary cs (byteLength cs) :=
  ⟨cs, [], (List.append_nil cs).symm, rfl⟩

/-- A place in a part of a text is a place in the text. -/
theorem OnBoundary.within {cs : List Char} {n : Nat} (h : OnBoundary cs n) (before after : List Char) :
    OnBoundary (before ++ cs ++ after) (n + byteLength before) := by
  obtain ⟨front, back, rfl, rfl⟩ := h
  refine ⟨before ++ front, back ++ after, by simp, ?_⟩
  rw [byteLength_append, Nat.add_comm]

/-- The place of a piece of a text. -/
structure InText (cs : List Char) (s : Span) : Prop where
  start : OnBoundary cs s.start
  stop : OnBoundary cs s.stop
  start_le_stop : s.start ≤ s.stop

theorem inText_of_append {cs before piece after : List Char} (h : cs = before ++ piece ++ after) :
    InText cs ⟨byteLength before, byteLength (before ++ piece)⟩ where
  start := ⟨before, piece ++ after, by rw [h, List.append_assoc], rfl⟩
  stop := ⟨before ++ piece, after, h, rfl⟩
  start_le_stop := by
    rw [byteLength_append]
    exact Nat.le_add_right _ _

namespace Lexer

theorem inText_of_pieces {cs : List Char} {before after : List Piece} {p : Piece} (h : pieces cs = before ++ p :: after) :
    InText cs ⟨byteLength (before.flatMap Piece.text), byteLength ((before ++ [p]).flatMap Piece.text)⟩ := by
  have hcs : cs = before.flatMap Piece.text ++ p.text ++ after.flatMap Piece.text := by
    rw [← flatMap_text_pieces cs, h, List.flatMap_append, List.flatMap_cons, List.append_assoc]
  rw [List.flatMap_append, List.flatMap_singleton]
  exact inText_of_append hcs

theorem inText_of_mem_lexemes {cs : List Char} {l : Lexeme} (h : l ∈ lexemes 0 cs) : InText cs l.span := by
  obtain ⟨before, p, after, hsplit, -, hspan⟩ := exists_of_mem_lexemesFrom h
  rw [hspan, Nat.zero_add, Nat.zero_add]
  exact inText_of_pieces hsplit

theorem exists_of_firstRejectedFrom {start : Nat} {ps : List Piece} {text : List Char} {s : Span}
    (h : firstRejectedFrom start ps = some (text, s)) : ∃ before p after, ps = before ++ p :: after ∧
      s = ⟨start + byteLength (before.flatMap Piece.text), start + byteLength ((before ++ [p]).flatMap Piece.text)⟩ := by
  induction ps generalizing start with
  | nil => cases h
  | cons p ps ih =>
    have hrest (h : firstRejectedFrom (start + byteLength p.text) ps = some (text, s)) :
        ∃ before q after, p :: ps = before ++ q :: after ∧ s =
          ⟨start + byteLength (before.flatMap Piece.text), start + byteLength ((before ++ [q]).flatMap Piece.text)⟩ := by
      obtain ⟨before, q, after, rfl, hspan⟩ := ih h
      refine ⟨p :: before, q, after, rfl, ?_⟩
      rw [hspan, List.cons_append, List.flatMap_cons, List.flatMap_cons, byteLength_append, byteLength_append,
        Nat.add_assoc, Nat.add_assoc]
    rw [firstRejectedFrom] at h
    split at h
    · cases h
      exact ⟨[], p, ps, rfl, by simp⟩
    · exact hrest h

theorem inText_of_firstRejected {cs text : List Char} {s : Span} (h : firstRejected 0 cs = some (text, s)) :
    InText cs s := by
  obtain ⟨before, p, after, hsplit, hspan⟩ := exists_of_firstRejectedFrom h
  rw [hspan, Nat.zero_add, Nat.zero_add]
  exact inText_of_pieces hsplit

/-! ### One token after another -/

theorem start_le_of_mem_lexemesFrom {start : Nat} {ps : List Piece} {l : Lexeme} (h : l ∈ lexemesFrom start ps) :
    start ≤ l.span.start := by
  obtain ⟨before, p, after, -, -, hspan⟩ := exists_of_mem_lexemesFrom h
  rw [hspan]
  exact Nat.le_add_right _ _

theorem stop_le_of_mem_lexemesFrom {start : Nat} {ps : List Piece} {l : Lexeme} (h : l ∈ lexemesFrom start ps) :
    l.span.stop ≤ start + byteLength (ps.flatMap Piece.text) := by
  obtain ⟨before, p, after, rfl, -, hspan⟩ := exists_of_mem_lexemesFrom h
  rw [List.append_cons before p after, List.flatMap_append, byteLength_append, hspan, ← Nat.add_assoc]
  exact Nat.le_add_right _ _

theorem pairwise_lexemesFrom (start : Nat) (ps : List Piece) :
    (lexemesFrom start ps).Pairwise fun a b => a.span.stop ≤ b.span.start := by
  induction ps generalizing start with
  | nil => exact .nil
  | cons p ps ih =>
    rw [lexemesFrom]
    cases p.kind with
    | token t => exact List.pairwise_cons.mpr ⟨fun l hl => start_le_of_mem_lexemesFrom hl, ih _⟩
    | _ => exact ih _

section

variable {cs : List Char} {i j : Nat} {a b : Lexeme}

theorem stop_le_start_lexemes (ha : (lexemes 0 cs)[i]? = some a) (hb : (lexemes 0 cs)[j]? = some b) (hij : i < j) :
    a.span.stop ≤ b.span.start := by
  obtain ⟨hi, rfl⟩ := List.getElem?_eq_some_iff.mp ha
  obtain ⟨hj, rfl⟩ := List.getElem?_eq_some_iff.mp hb
  exact List.pairwise_iff_getElem.mp (pairwise_lexemesFrom 0 (pieces cs)) i j hi hj hij

theorem start_le_stop_of_getElem? (ha : (lexemes 0 cs)[i]? = some a) : a.span.start ≤ a.span.stop :=
  (inText_of_mem_lexemes (List.mem_of_getElem? ha)).start_le_stop

theorem start_le_start_lexemes (ha : (lexemes 0 cs)[i]? = some a) (hb : (lexemes 0 cs)[j]? = some b) (hij : i ≤ j) :
    a.span.start ≤ b.span.start := by
  rcases Nat.lt_or_eq_of_le hij with hlt | rfl
  · exact Nat.le_trans (start_le_stop_of_getElem? ha) (stop_le_start_lexemes ha hb hlt)
  · obtain rfl := Option.some.inj (ha.symm.trans hb)
    exact Nat.le_refl _

theorem stop_le_stop_lexemes (ha : (lexemes 0 cs)[i]? = some a) (hb : (lexemes 0 cs)[j]? = some b) (hij : i ≤ j) :
    a.span.stop ≤ b.span.stop := by
  rcases Nat.lt_or_eq_of_le hij with hlt | rfl
  · exact Nat.le_trans (stop_le_start_lexemes ha hb hlt) (start_le_stop_of_getElem? hb)
  · obtain rfl := Option.some.inj (ha.symm.trans hb)
    exact Nat.le_refl _

/-- From the start of a token to the end of one that does not come before it. -/
theorem start_le_stop_lexemes (ha : (lexemes 0 cs)[i]? = some a) (hb : (lexemes 0 cs)[j]? = some b) (hij : i ≤ j) :
    a.span.start ≤ b.span.stop :=
  Nat.le_trans (start_le_start_lexemes ha hb hij) (start_le_stop_of_getElem? hb)

end

end Lexer

end Inclusion
