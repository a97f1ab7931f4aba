import Inclusion.Token.Lexer
/-!
# Where a text begins

The place at which a text begins is only added to the places of its tokens: the tokens themselves, and whether
something is rejected, do not depend on it.
-/

namespace Inclusion

/-- The token in a text with `n` bytes put before it. -/
def Lexeme.shift (l : Lexeme) (n : Nat) : Lexeme :=
  ⟨l.token, l.span.shift n⟩

/-- The token that a piece is. -/
def Piece.token? (p : Piece) : Option Token :=
  match p.kind with
  | .token t => some t
  | _ => none

namespace Lexer

theorem lexemesFrom_add (start n : Nat) (ps : List Piece) :
    lexemesFrom (start + n) ps = (lexemesFrom start ps).map fun l => l.shift n := by
  induction ps generalizing start with
  | nil => rfl
  | cons p ps ih =>
    have hstop : start + n + byteLength p.text = start + byteLength p.text + n := by omega
    rw [lexemesFrom, lexemesFrom, hstop]
    cases p.kind with
    | token t =>
      simp only [ih, List.map_cons]
      rfl
    | _ => exact ih _

theorem firstRejectedFrom_add (start n : Nat) (ps : List Piece) :
    firstRejectedFrom (start + n) ps = (firstRejectedFrom start ps).map fun r => (r.1, r.2.shift n) := by
  induction ps generalizing start with
  | nil => rfl
  | cons p ps ih =>
    have hstop : start + n + byteLength p.text = start + byteLength p.text + n := by omega
    rw [firstRejectedFrom, firstRejectedFrom, hstop]
    cases p.kind with
    | rejected => rfl
    | _ => exact ih _

theorem lexemes_eq_map (offset : Nat) (cs : List Char) :
    lexemes offset cs = (lexemes 0 cs).map fun l => l.shift offset := by
  rw [lexemes, lexemes, ← lexemesFrom_add, Nat.zero_add]

theorem firstRejected_eq_map (offset : Nat) (cs : List Char) :
    firstRejected offset cs = (firstRejected 0 cs).map fun r => (r.1, r.2.shift offset) := by
  rw [firstRejected, firstRejected, ← firstRejectedFrom_add, Nat.zero_add]

theorem firstRejected_of_zero {cs : List Char} (h : firstRejected 0 cs = none) (offset : Nat) :
    firstRejected offset cs = none := by
  rw [firstRejected_eq_map, h]
  rfl

/-- The tokens of a text, without their places. -/
def tokens (cs : List Char) : List Token :=
  (lexemes 0 cs).map Lexeme.token

theorem map_token_lexemes (offset : Nat) (cs : List Char) : (lexemes offset cs).map Lexeme.token = tokens cs := by
  rw [lexemes_eq_map, List.map_map]
  rfl

theorem map_token_lexemesFrom (start : Nat) (ps : List Piece) :
    (lexemesFrom start ps).map Lexeme.token = ps.filterMap Piece.token? := by
  induction ps generalizing start with
  | nil => rfl
  | cons p ps ih =>
    rw [lexemesFrom, List.filterMap_cons, Piece.token?]
    cases p.kind with
    | token t => exact congrArg (t :: ·) (ih _)
    | _ => exact ih _

theorem tokens_eq_filterMap (cs : List Char) : tokens cs = (pieces cs).filterMap Piece.token? :=
  map_token_lexemesFrom 0 (pieces cs)

theorem lexemesFrom_append (start : Nat) (ps qs : List Piece) :
    lexemesFrom start (ps ++ qs) =
      lexemesFrom start ps ++ lexemesFrom (start + byteLength (ps.flatMap Piece.text)) qs := by
  induction ps generalizing start with
  | nil => rfl
  | cons p ps ih =>
    have hplace : start + byteLength ((p :: ps).flatMap Piece.text) =
        start + byteLength p.text + byteLength (ps.flatMap Piece.text) := by
      rw [List.flatMap_cons, byteLength_append, Nat.add_assoc]
    rw [List.cons_append, lexemesFrom, lexemesFrom, hplace]
    cases p.kind with
    | token t => exact congrArg (_ :: ·) (ih _)
    | _ => exact ih _

/-- Where a token is among the pieces. The tokens before it are those of the pieces before its own. -/
theorem exists_of_getElem?_lexemesFrom {start i : Nat} {ps : List Piece} {l : Lexeme}
    (h : (lexemesFrom start ps)[i]? = some l) :
    ∃ before p after, ps = before ++ p :: after ∧ p.kind = .token l.token ∧
      lexemesFrom start before = (lexemesFrom start ps).take i ∧
      lexemesFrom start (before ++ [p]) = (lexemesFrom start ps).take (i + 1) ∧
      l.span = ⟨start + byteLength (before.flatMap Piece.text), start + byteLength ((before ++ [p]).flatMap Piece.text)⟩ := by
  induction ps generalizing start i with
  | nil => simp [lexemesFrom] at h
  | cons p ps ih =>
    have hplace (before : List Piece) : start + byteLength p.text + byteLength (before.flatMap Piece.text) =
        start + byteLength ((p :: before).flatMap Piece.text) := by
      rw [List.flatMap_cons, byteLength_append, Nat.add_assoc]
    cases hkind : p.kind with
    | token t =>
      have hcons (qs : List Piece) : lexemesFrom start (p :: qs) =
          ⟨t, ⟨start, start + byteLength p.text⟩⟩ :: lexemesFrom (start + byteLength p.text) qs := by
        rw [lexemesFrom, hkind]
      rw [hcons] at h ⊢
      cases i with
      | zero =>
        obtain rfl := Option.some.inj h
        exact ⟨[], p, ps, rfl, hkind, rfl, hcons [], by simp⟩
      | succ i =>
        obtain ⟨before, q, after, rfl, hq, hbefore, hthrough, hspan⟩ := ih h
        refine ⟨p :: before, q, after, rfl, hq, ?_, ?_, ?_⟩
        · rw [hcons, hbefore, List.take_succ_cons]
        · rw [List.cons_append, hcons, hthrough, List.take_succ_cons]
        · rw [hspan, hplace, hplace, List.cons_append]
    | _ =>
      have hcons (qs : List Piece) : lexemesFrom start (p :: qs) = lexemesFrom (start + byteLength p.text) qs := by
        rw [lexemesFrom, hkind]
      rw [hcons] at h ⊢
      obtain ⟨before, q, after, rfl, hq, hbefore, hthrough, hspan⟩ := ih h
      refine ⟨p :: before, q, after, rfl, hq, ?_, ?_, ?_⟩
      · rw [hcons, hbefore]
      · rw [List.cons_append, hcons, hthrough]
      · rw [hspan, hplace, hplace, List.cons_append]

theorem exists_of_mem_lexemesFrom {start : Nat} {ps : List Piece} {l : Lexeme} (h : l ∈ lexemesFrom start ps) :
    ∃ before p after, ps = before ++ p :: after ∧ p.kind = .token l.token ∧
      l.span = ⟨start + byteLength (before.flatMap Piece.text), start + byteLength ((before ++ [p]).flatMap Piece.text)⟩ := by
  obtain ⟨i, hi⟩ := List.mem_iff_getElem?.mp h
  obtain ⟨before, p, after, hps, hkind, -, -, hspan⟩ := exists_of_getElem?_lexemesFrom hi
  exact ⟨before, p, after, hps, hkind, hspan⟩

theorem firstRejectedFrom_eq_none (start : Nat) {ps : List Piece} (h : ∀ p ∈ ps, p.kind ≠ .rejected) :
    firstRejectedFrom start ps = none := by
  induction ps generalizing start with
  | nil => rfl
  | cons p ps ih =>
    obtain ⟨hp, hps⟩ := List.forall_mem_cons.mp h
    rw [firstRejectedFrom]
    cases hkind : p.kind with
    | rejected => exact absurd hkind hp
    | _ => exact ih _ hps

theorem kind_ne_rejected {start : Nat} {ps : List Piece} (h : firstRejectedFrom start ps = none) :
    ∀ p ∈ ps, p.kind ≠ .rejected := by
  induction ps generalizing start with
  | nil =>
    intro p hp
    cases hp
  | cons q ps ih =>
    rw [firstRejectedFrom] at h
    intro p hp
    cases hkind : q.kind with
    | rejected =>
      rw [hkind] at h
      cases h
    | _ =>
      rw [hkind] at h
      cases List.mem_cons.mp hp with
      | inl hp => simp [hp, hkind]
      | inr hp => exact ih h p hp

end Lexer

end Inclusion
