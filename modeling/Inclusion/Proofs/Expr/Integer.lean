import Inclusion.Proofs.Grammar.Parse
import Inclusion.Proofs.Token.Longest
import Mathlib.Algebra.Ring.Int.Defs
/-!
# Integers in expressions

A run of digits is one piece of a text, however long it is, and its value decides whether it is a token. A minus before it
is a token of its own. So an expression that is an integer literal holds the exact value of its digits, with its sign, or
the digits are rejected as a whole; nothing wraps around. The integers that can be written are those from `1 - 2 ^ 63` to
`2 ^ 63 - 1` (`parse_digits`).
-/

namespace Inclusion

open Grammar

namespace Lexer

/-! ### The pieces of a number -/

variable {digits : List Char}

theorem pieces_digits (hne : digits ≠ []) (hdigits : ∀ c ∈ digits, c.isDigit = true) :
    pieces digits = [⟨integerKind digits, digits⟩] := by
  obtain ⟨c, cs, rfl⟩ := List.exists_cons_of_ne_nil hne
  have hmunch : munch c (cs ++ []) = (integerKind (c :: cs), cs.length) := munch_digits hdigits (by simp)
  rw [List.append_nil] at hmunch
  rw [pieces_cons, hmunch, List.take_length, List.drop_length, pieces]

theorem pieces_minus_digits (hne : digits ≠ []) (hdigits : ∀ c ∈ digits, c.isDigit = true) :
    pieces ('-' :: digits) = [⟨.token .minus, ['-']⟩, ⟨integerKind digits, digits⟩] := by
  have hhead : ∀ d ∈ digits.head?, d ≠ '%' ∧ d ≠ '#' := by
    intro d hd
    have hdigit := hdigits d (List.mem_of_head? hd)
    constructor <;> rintro rfl <;> exact absurd hdigit (by decide)
  rw [pieces_cons, munch_of_symbol? rfl hhead, List.take_zero, List.drop_zero, pieces_digits hne hdigits]

theorem byteLength_of_isDigit (hdigits : ∀ c ∈ digits, c.isDigit = true) : byteLength digits = digits.length := by
  induction digits with
  | nil => rfl
  | cons c cs ih =>
    obtain ⟨hc, hcs⟩ := List.forall_mem_cons.mp hdigits
    have hsize : c.utf8Size = 1 := by
      have h57 : c.toNat ≤ 57 := of_decide_eq_true (Bool.and_eq_true_iff.mp hc).2
      rw [Char.utf8Size_eq_one_iff, UInt32.le_iff_toNat_le]
      show c.toNat ≤ 127
      omega
    rw [byteLength_cons, hsize, ih hcs, List.length_cons, Nat.add_comm]

/-- An integer token is below the bound. -/
theorem lt_of_integerKind {n : Nat} (h : integerKind digits = .token (.integer n)) : n < 2 ^ 63 := by
  unfold integerKind at h
  dsimp only at h
  split at h
  · next hlt =>
    cases h
    exact hlt
  · cases h

theorem lt_of_matches {text : List Char} {n : Nat} (h : Matches text (.token (.integer n))) : n < 2 ^ 63 := by
  generalize hkind : Piece.Kind.token (.integer n) = kind at h
  cases h with
  | fixed h =>
    obtain rfl := Piece.Kind.token.inj hkind
    simp [fixedTokens] at h
  | integer => exact lt_of_integerKind hkind.symm
  | _ => cases hkind

theorem lt_of_mem_tokens {cs : List Char} {n : Nat} (h : .integer n ∈ tokens cs) : n < 2 ^ 63 := by
  rw [tokens_eq_filterMap] at h
  obtain ⟨p, hp, htoken⟩ := List.mem_filterMap.mp h
  obtain ⟨before, after, hsplit⟩ := List.append_of_mem hp
  unfold Piece.token? at htoken
  split at htoken
  · next hkind =>
    have hmatches := matches_of_pieces hsplit (by simp [hkind])
    rw [hkind, Option.some.inj htoken] at hmatches
    exact lt_of_matches hmatches
  · cases htoken

end Lexer

/-! ### Literals -/

namespace Grammar

/-- More than one atom is a concatenation. -/
theorem Chain.exprAfter_some (left : Expr) (c : Chain) : ∃ l r, c.exprAfter (some left) = .concat l r := by
  cases c with
  | one a => exact ⟨left, a.expr, rfl⟩
  | cons a rest => exact rest.exprAfter_some (.concat left a.expr)

mutual

/-- The integer of a literal is written as a number, perhaps with a minus. -/
theorem Chain.exists_integer {i : Int} : ∀ {c : Chain}, c.exprAfter none = .literal (.number (.int i)) →
    ∃ n : Nat, .integer n ∈ c.tokens ∧ (i = n ∨ i = -n)
  | .one a, h => a.exists_integer h
  | .cons a rest, h => by
    obtain ⟨l, r, hconcat⟩ := rest.exprAfter_some (Expr.join none a.expr)
    rw [Chain.exprAfter, hconcat] at h
    cases h

theorem Atom.exists_integer {i : Int} : ∀ {a : Atom}, a.expr = .literal (.number (.int i)) →
    ∃ n : Nat, .integer n ∈ a.tokens ∧ (i = n ∨ i = -n)
  | .literal (.numeral (.integer n)), h => ⟨n, List.mem_cons_self, .inl (by cases h; rfl)⟩
  | .literal (.numeral (.float x)), h => by
    simp only [Atom.expr, Literal.scalar, Numeral.scalar, Scalar.ofFloat] at h
    split at h <;> cases h
  | .negative (.integer n), h => ⟨n, List.mem_cons_of_mem _ List.mem_cons_self, .inr (by cases h; rfl)⟩
  | .negative (.float x), h => by
    simp only [Atom.expr, Numeral.negative, Scalar.ofFloat] at h
    split at h <;> cases h
  | .paren c, h => by
    obtain ⟨n, hn, hi⟩ := c.exists_integer h
    exact ⟨n, List.mem_cons_of_mem _ (List.mem_append_left _ hn), hi⟩

end

end Grammar

namespace Expr

/-! ### Parsing -/

/-- The pieces of a text decide what it is parsed as: if none is rejected, its tokens do. -/
theorem parse_of_pieces {cs : List Char} {ps : List Piece} {c : Chain} (hpieces : Lexer.pieces cs = ps)
    (hkinds : ∀ p ∈ ps, p.kind ≠ .rejected) (htokens : c.tokens = ps.filterMap Piece.token?) :
    Expr.parse (String.ofList cs) = .ok c.expr := by
  rw [parse_eq_ok_iff, String.toList_ofList]
  refine ⟨?_, c, ?_, rfl⟩
  · rw [Lexer.firstRejected, hpieces]
    exact Lexer.firstRejectedFrom_eq_none 0 hkinds
  · rw [htokens, Lexer.tokens_eq_filterMap, hpieces]

theorem parse_of_firstRejected {cs text : List Char} {s : Span} (h : Lexer.firstRejected 0 cs = some (text, s)) :
    Expr.parse (String.ofList cs) = .error ⟨.rejected (String.ofList text), s⟩ := by
  rw [Expr.parse, String.toList_ofList, Directive.scan, h]

section

variable {digits : List Char}

theorem integerKind_eq (hdigits : ∀ c ∈ digits, c.isDigit = true) : Lexer.integerKind digits =
    let v := Nat.ofDigitChars 10 digits 0
    if v ≤ 2 ^ 63 - 1 then .token (.integer v) else .rejected := by
  rw [Lexer.integerKind, Lexer.ofDigits_eq_ofDigitChars hdigits]
  dsimp only
  split
  · next hlt => rw [if_pos (by omega)]
  · next hlt => rw [if_neg (by omega)]

theorem parse_digits_of_le (hne : digits ≠ []) (hdigits : ∀ c ∈ digits, c.isDigit = true)
    (hle : Nat.ofDigitChars 10 digits 0 ≤ 2 ^ 63 - 1) :
    let v := Nat.ofDigitChars 10 digits 0
    Expr.parse (String.ofList digits) = .ok (.literal (.number (.int v))) ∧
      Expr.parse (String.ofList ('-' :: digits)) = .ok (.literal (.number (.int (-v)))) := by
  intro v
  have hkind : Lexer.integerKind digits = .token (.integer v) := by
    rw [integerKind_eq hdigits]
    exact if_pos hle
  have hpieces := Lexer.pieces_digits hne hdigits
  have hminus := Lexer.pieces_minus_digits hne hdigits
  rw [hkind] at hpieces hminus
  constructor
  · exact parse_of_pieces (c := .one (.literal (.numeral (.integer v)))) hpieces (by simp) rfl
  · exact parse_of_pieces (c := .one (.negative (.integer v))) hminus (by simp) rfl

theorem parse_digits_of_lt (hne : digits ≠ []) (hdigits : ∀ c ∈ digits, c.isDigit = true)
    (hlt : 2 ^ 63 - 1 < Nat.ofDigitChars 10 digits 0) :
    Expr.parse (String.ofList digits) = .error ⟨.rejected (String.ofList digits), ⟨0, digits.length⟩⟩ ∧
      Expr.parse (String.ofList ('-' :: digits)) =
        .error ⟨.rejected (String.ofList digits), ⟨1, digits.length + 1⟩⟩ := by
  have hkind : Lexer.integerKind digits = .rejected := by
    rw [integerKind_eq hdigits]
    exact if_neg (Nat.not_le.mpr hlt)
  have hpieces := Lexer.pieces_digits hne hdigits
  have hminus := Lexer.pieces_minus_digits hne hdigits
  rw [hkind] at hpieces hminus
  have hbytes := Lexer.byteLength_of_isDigit hdigits
  constructor
  · apply parse_of_firstRejected
    rw [Lexer.firstRejected, hpieces, Lexer.firstRejectedFrom, hbytes, Nat.zero_add]
  · apply parse_of_firstRejected
    have hsign : byteLength ['-'] = 1 := rfl
    rw [Lexer.firstRejected, hminus, Lexer.firstRejectedFrom, Lexer.firstRejectedFrom, hsign, hbytes]
    rw [Nat.zero_add, Nat.add_comm 1]

end

theorem bounds_of_parse {text : String} {i : Int} (h : Expr.parse text = .ok (.literal (.number (.int i)))) :
    -2 ^ 63 < i ∧ i < 2 ^ 63 := by
  obtain ⟨-, c, htokens, hexpr⟩ := parse_eq_ok_iff.mp h
  obtain ⟨n, hn, hi⟩ := c.exists_integer hexpr
  rw [htokens] at hn
  have hlt := Lexer.lt_of_mem_tokens hn
  omega

/-- An integer is written with the digits of its absolute value. -/
theorem exists_parse {i : Int} (h : -2 ^ 63 < i ∧ i < 2 ^ 63) :
    ∃ text, Expr.parse text = .ok (.literal (.number (.int i))) := by
  have hvalue := Nat.ofDigitChars_ten_toDigits (n := i.natAbs)
  have hle : i.natAbs ≤ 2 ^ 63 - 1 := by omega
  have hparse := parse_digits_of_le Nat.toDigits_ne_nil (Lexer.isDigit_of_mem_toDigits i.natAbs) (hvalue.symm ▸ hle)
  rw [hvalue] at hparse
  rcases Int.natAbs_eq i with hi | hi
  · rw [hi]
    exact ⟨_, hparse.1⟩
  · rw [hi]
    exact ⟨_, hparse.2⟩

/-- Digits are the integer literal of their value, and with a minus before them that of its negation, if the value is at
most `2 ^ 63 - 1`; otherwise there is one fault, at all of the digits. The integers that can be written are those in between,
`-2 ^ 63` not among them. -/
theorem parse_digits :
    (∀ digits : List Char, digits ≠ [] → (∀ c ∈ digits, c.isDigit = true) →
      let v := Nat.ofDigitChars 10 digits 0
      (v ≤ 2 ^ 63 - 1 →
        Expr.parse (String.ofList digits) = .ok (.literal (.number (.int v))) ∧
          Expr.parse (String.ofList ('-' :: digits)) = .ok (.literal (.number (.int (-v))))) ∧
      (2 ^ 63 - 1 < v →
        Expr.parse (String.ofList digits) = .error ⟨.rejected (String.ofList digits), ⟨0, digits.length⟩⟩ ∧
          Expr.parse (String.ofList ('-' :: digits)) =
            .error ⟨.rejected (String.ofList digits), ⟨1, digits.length + 1⟩⟩)) ∧
    ∀ i : Int, (∃ text, Expr.parse text = .ok (.literal (.number (.int i)))) ↔ -2 ^ 63 < i ∧ i < 2 ^ 63 := by
  constructor
  · intro digits hne hdigits
    exact ⟨parse_digits_of_le hne hdigits, parse_digits_of_lt hne hdigits⟩
  · intro i
    constructor
    · rintro ⟨text, hparse⟩
      exact bounds_of_parse hparse
    · exact exists_parse

/-- With zeros before them, digits have the same value; the bound is in the digits and not in their number. -/
theorem parse_digits_limit :
    Expr.parse "-009223372036854775807" = .ok (.literal (.number (.int (-9223372036854775807)))) ∧
      Expr.parse "-9223372036854775808" = .error ⟨.rejected "9223372036854775808", ⟨1, 20⟩⟩ := by
  have hle := parse_digits.1 "009223372036854775807".toList (by decide) (List.all_eq_true.mp (by decide))
  have hlt := parse_digits.1 "9223372036854775808".toList (by decide) (List.all_eq_true.mp (by decide))
  exact ⟨(hle.1 (by decide)).2, (hlt.2 (by decide)).2⟩

end Expr

end Inclusion
