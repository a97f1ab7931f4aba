import Inclusion.Proofs.Grammar.Directive
import Inclusion.Proofs.Token.Lexer
/-!
# Parsing follows the grammar

For a text without rejected characters, parsing succeeds exactly when the tokens of the text have a derivation;
there is only one, and what parsing gives is read off it.
-/

namespace Inclusion

open Grammar

theorem Directive.scan_eq_ok {offset : Nat} {cs : List Char} {lexemes : List Lexeme}
    (haccepted : Lexer.firstRejected offset cs = none) (h : Lexer.lexemes offset cs = lexemes) :
    Directive.scan offset cs = .ok lexemes := by
  rw [scan, haccepted, h]

theorem Directive.parse_eq_ok_iff {tag : String} {offset : Nat} {cs : List Char} {d : Directive} :
    Directive.parse tag offset cs = .ok d ↔ Lexer.firstRejected offset cs = none ∧
      ∃ s : Sentence, s.tokens tag = Lexer.tokens cs ∧ d = ofOutline tag (Lexer.lexemes offset cs) (s.outline tag) := by
  rw [Directive.parse, scan]
  cases Lexer.firstRejected offset cs with
  | some r => simp
  | none =>
    dsimp only
    rw [Lexer.map_token_lexemes]
    cases h : ofTokens tag (Lexer.tokens cs) with
    | error stop =>
      have hnone : ¬ ∃ s : Sentence, s.tokens tag = Lexer.tokens cs := by
        rintro ⟨s, hs⟩
        rw [ofTokens_eq_ok_iff.mpr ⟨s, hs, rfl⟩] at h
        cases h
      simp only [reduceCtorEq, true_and, false_iff]
      rintro ⟨s, hs, -⟩
      exact hnone ⟨s, hs⟩
    | ok o =>
      obtain ⟨s, hs, rfl⟩ := ofTokens_eq_ok_iff.mp h
      simp only [Except.ok.injEq, true_and]
      constructor
      · rintro rfl
        exact ⟨s, hs, rfl⟩
      · rintro ⟨u, hu, rfl⟩
        rw [Sentence.unique (hs.trans hu.symm)]

theorem Expr.parse_eq_ok_iff {text : String} {e : Expr} :
    Expr.parse text = .ok e ↔ Lexer.firstRejected 0 text.toList = none ∧
      ∃ c : Chain, c.tokens = Lexer.tokens text.toList ∧ c.expr = e := by
  rw [Expr.parse, Directive.scan]
  cases Lexer.firstRejected 0 text.toList with
  | some r => simp
  | none =>
    dsimp only
    rw [Lexer.map_token_lexemes, ← ofTokens_eq_ok_iff]
    cases ofTokens (Lexer.tokens text.toList) <;> simp

theorem Chain.unique_of_tokens {c d : Chain} (h : c.tokens = d.tokens) : c = d := by
  have := Chain.unique (c := c) (d := d) (r := []) (s := []) (by simp) (by simp) (by simp [h])
  exact this.1

/-- A text without rejected characters is a directive exactly when its tokens can be derived, and an expression
likewise; the derivation is the only one and gives the result. -/
theorem parse_iff_derivable (tag : String) (offset : Nat) (text : String)
    (haccepted : Lexer.firstRejected 0 text.toList = none) :
    ((∃ d, Directive.parse tag offset text.toList = .ok d) ↔
        ∃ s : Sentence, s.tokens tag = Lexer.tokens text.toList) ∧
      (∀ s : Sentence, s.tokens tag = Lexer.tokens text.toList →
        (∀ u : Sentence, u.tokens tag = Lexer.tokens text.toList → u = s) ∧
          Directive.parse tag offset text.toList =
            .ok (Directive.ofOutline tag (Lexer.lexemes offset text.toList) (s.outline tag))) ∧
      ((∃ e, Expr.parse text = .ok e) ↔ ∃ c : Chain, c.tokens = Lexer.tokens text.toList) ∧
      ∀ c : Chain, c.tokens = Lexer.tokens text.toList →
        (∀ k : Chain, k.tokens = Lexer.tokens text.toList → k = c) ∧ Expr.parse text = .ok c.expr := by
  have hoffset := Lexer.firstRejected_of_zero haccepted offset
  refine ⟨⟨?_, ?_⟩, ?_, ⟨?_, ?_⟩, ?_⟩
  · rintro ⟨d, hd⟩
    obtain ⟨-, s, hs, -⟩ := Directive.parse_eq_ok_iff.mp hd
    exact ⟨s, hs⟩
  · rintro ⟨s, hs⟩
    exact ⟨_, Directive.parse_eq_ok_iff.mpr ⟨hoffset, s, hs, rfl⟩⟩
  · intro s hs
    refine ⟨fun u hu => Sentence.unique (hu.trans hs.symm), ?_⟩
    exact Directive.parse_eq_ok_iff.mpr ⟨hoffset, s, hs, rfl⟩
  · rintro ⟨e, he⟩
    obtain ⟨-, c, hc, -⟩ := Expr.parse_eq_ok_iff.mp he
    exact ⟨c, hc⟩
  · rintro ⟨c, hc⟩
    exact ⟨_, Expr.parse_eq_ok_iff.mpr ⟨haccepted, c, hc, rfl⟩⟩
  · intro c hc
    refine ⟨fun k hk => Chain.unique_of_tokens (hk.trans hc.symm), ?_⟩
    exact Expr.parse_eq_ok_iff.mpr ⟨haccepted, c, hc, rfl⟩

/-- `{% render "card" ~ (b.only) ignore missing with {x: [-1,],} only %}` -/
theorem parse_iff_derivable_card :
    let text := "\x7b% render \"card\" ~ (b.only) ignore missing with \x7bx: [-1,],\x7d only %\x7d"
    let card : Sentence := {
      block := true
      component := .cons (.literal (.string "card")) (.one (.paren (.one (.name (.ident "b") [.clause .only]))))
      missing := true
      vars := some (.one (.map (.cons (.word (.ident "x"))
        (.one (.list (.cons (.one (.negative (.integer 1))) .nil))) .nil)))
      only := true }
    Lexer.firstRejected 0 text.toList = none ∧
      Directive.parse "render" 0 text.toList =
        .ok (Directive.ofOutline "render" (Lexer.lexemes 0 text.toList) (card.outline "render")) := by
  intro text card
  have haccepted : Lexer.firstRejected 0 text.toList = none := by decide +kernel
  have htokens : card.tokens "render" = Lexer.tokens text.toList := by decide +kernel
  exact ⟨haccepted, ((parse_iff_derivable "render" 0 text haccepted).2.1 card htokens).2⟩

end Inclusion
