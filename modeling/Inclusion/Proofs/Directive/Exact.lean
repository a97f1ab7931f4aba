import Inclusion.Proofs.Directive.Place
import Inclusion.Proofs.Text.Slice
import Inclusion.Proofs.Token.Part
/-!
# What is at the places of a directive

The places that a directive records are exact: cutting out what is at one of them, and reading that on its own, gives
back what the directive says is there. All of them are places of tokens that follow one another, so this is one fact
about such a place (`exists_slice_spanOf`): what is cut out has the tokens of the whole text, each where it was. What the
tokens are read as does not depend on what is around them.
-/

namespace Inclusion

open Grammar

/-- The place begins where a token of the text does, and ends where one does. -/
structure OnTokens (cs : List Char) (s : Span) : Prop where
  start : ∃ l ∈ Lexer.lexemes 0 cs, s.start = l.span.start
  stop : ∃ l ∈ Lexer.lexemes 0 cs, s.stop = l.span.stop

/-- The expression is what is read from its place on its own, and the place is one of tokens in the place `outer`. -/
structure Exact (cs : List Char) (outer : Span) (e : Located Expr) : Prop where
  start_le : outer.start ≤ e.span.start
  le_stop : e.span.stop ≤ outer.stop
  onTokens : OnTokens cs e.span
  parse : ∃ text, slice? cs e.span = some text ∧ Expr.parse (String.ofList text) = .ok e.value

namespace Directive

variable {tag : String} {cs : List Char} {first next : Nat}

/-! ### The place of some tokens -/

theorem exists_spanOf_eq (horder : first < next) (hnext : next ≤ (Lexer.lexemes 0 cs).length) :
    ∃ a b, (Lexer.lexemes 0 cs)[first]? = some a ∧ (Lexer.lexemes 0 cs)[next - 1]? = some b ∧
      spanOf (Lexer.lexemes 0 cs) first next = ⟨a.span.start, b.span.stop⟩ := by
  have ha := List.getElem?_eq_getElem (Nat.lt_of_lt_of_le horder hnext)
  have hlast : next - 1 < (Lexer.lexemes 0 cs).length := by omega
  have hb := List.getElem?_eq_getElem hlast
  refine ⟨_, _, ha, hb, ?_⟩
  rw [spanOf, ha, hb]
  rfl

theorem onTokens_spanOf (horder : first < next) (hnext : next ≤ (Lexer.lexemes 0 cs).length) :
    OnTokens cs (spanOf (Lexer.lexemes 0 cs) first next) := by
  obtain ⟨a, b, ha, hb, hspan⟩ := exists_spanOf_eq horder hnext
  rw [hspan]
  exact ⟨⟨a, List.mem_of_getElem? ha, rfl⟩, ⟨b, List.mem_of_getElem? hb, rfl⟩⟩

/-- The place of some tokens is in the place of all of them. -/
theorem spanOf_within (horder : first < next) (hnext : next ≤ (Lexer.lexemes 0 cs).length) :
    let all := spanOf (Lexer.lexemes 0 cs) 0 (Lexer.lexemes 0 cs).length
    all.start ≤ (spanOf (Lexer.lexemes 0 cs) first next).start ∧
      (spanOf (Lexer.lexemes 0 cs) first next).stop ≤ all.stop := by
  have hall : 0 < (Lexer.lexemes 0 cs).length := by omega
  obtain ⟨a, b, ha, hb, hspan⟩ := exists_spanOf_eq horder hnext
  obtain ⟨c, d, hc, hd, hwhole⟩ := exists_spanOf_eq hall (Nat.le_refl _)
  have hlast : next - 1 ≤ (Lexer.lexemes 0 cs).length - 1 := by omega
  dsimp only
  rw [hspan, hwhole]
  exact ⟨Lexer.start_le_start_lexemes hc ha (Nat.zero_le first), Lexer.stop_le_stop_lexemes hb hd hlast⟩

/-- Some tokens end before those begin that come after them. -/
theorem spanOf_stop_le {first' next' : Nat} (horder : first < next) (hapart : next ≤ first') (horder' : first' < next')
    (hnext' : next' ≤ (Lexer.lexemes 0 cs).length) :
    (spanOf (Lexer.lexemes 0 cs) first next).stop ≤ (spanOf (Lexer.lexemes 0 cs) first' next').start := by
  have hnext : next ≤ (Lexer.lexemes 0 cs).length := by omega
  obtain ⟨a, b, ha, hb, hspan⟩ := exists_spanOf_eq horder hnext
  obtain ⟨c, d, hc, hd, hspan'⟩ := exists_spanOf_eq horder' hnext'
  have hlast : next - 1 < first' := by omega
  rw [hspan, hspan']
  exact Lexer.stop_le_start_lexemes hb hc hlast

/-- What is at the place of some tokens has these tokens, each where it is in the whole text. -/
theorem exists_slice_spanOf (haccepted : Lexer.firstRejected 0 cs = none) (horder : first < next)
    (hnext : next ≤ (Lexer.lexemes 0 cs).length) :
    ∃ text, slice? cs (spanOf (Lexer.lexemes 0 cs) first next) = some text ∧ Lexer.firstRejected 0 text = none ∧
      Lexer.lexemes (spanOf (Lexer.lexemes 0 cs) first next).start text =
        ((Lexer.lexemes 0 cs).take next).drop first := by
  obtain ⟨a, b, ha, hb, hspan⟩ := exists_spanOf_eq horder hnext
  obtain ⟨before, part, after, hpieces, hstart, hstop, hlexemes⟩ := Lexer.exists_part ha hb horder
  have hkinds : ∀ p ∈ part, p.kind ≠ .rejected := by
    intro p hp
    apply Lexer.kind_ne_rejected haccepted
    rw [hpieces]
    exact List.mem_append_left _ (List.mem_append_right _ hp)
  have hpart := Lexer.pieces_part hpieces hkinds
  refine ⟨part.flatMap Piece.text, ?_, ?_, ?_⟩
  · apply slice?_eq_some_iff.mpr
    refine ⟨before.flatMap Piece.text, after.flatMap Piece.text, ?_, ?_⟩
    · rw [← List.flatMap_append, ← List.flatMap_append, ← hpieces, Lexer.flatMap_text_pieces]
    · rw [hspan, hstart, hstop, List.flatMap_append]
  · rw [Lexer.firstRejected, hpart]
    exact Lexer.firstRejectedFrom_eq_none 0 hkinds
  · rw [hspan, Lexer.lexemes, hpart]
    exact hlexemes

/-! ### The places of the expressions -/

theorem length_le_of_tokens {before ts after : List Token} (htokens : Lexer.tokens cs = before ++ ts ++ after) :
    before.length + ts.length ≤ (Lexer.lexemes 0 cs).length := by
  have hlength := congrArg List.length htokens
  rw [Lexer.tokens, List.length_map, List.length_append, List.length_append] at hlength
  omega

theorem exact_of_tokens (haccepted : Lexer.firstRejected 0 cs = none) {before after : List Token} {c : Chain}
    (htokens : Lexer.tokens cs = before ++ c.tokens ++ after) :
    Exact cs (spanOf (Lexer.lexemes 0 cs) 0 (Lexer.lexemes 0 cs).length)
      ⟨c.expr, spanOf (Lexer.lexemes 0 cs) before.length (before.length + c.tokens.length)⟩ := by
  have horder : before.length < before.length + c.tokens.length := Nat.lt_add_of_pos_right c.length_tokens_pos
  have hnext := length_le_of_tokens htokens
  have hwithin := spanOf_within horder hnext
  obtain ⟨text, hslice, htext, hlexemes⟩ := exists_slice_spanOf haccepted horder hnext
  refine ⟨hwithin.1, hwithin.2, onTokens_spanOf horder hnext, text, hslice, ?_⟩
  have hchain : c.tokens = Lexer.tokens text := by
    rw [← Lexer.map_token_lexemes _ text, hlexemes, List.map_drop, List.map_take, Lexer.map_token_lexemes, htokens,
      ← List.length_append, List.take_left, List.drop_left]
  apply Expr.parse_eq_ok_iff.mpr
  rw [String.toList_ofList]
  exact ⟨htext, c, hchain, rfl⟩

section

variable {s : Sentence} (haccepted : Lexer.firstRejected 0 cs = none) (hs : s.tokens tag = Lexer.tokens cs)

include hs

theorem tokens_eq_component :
    Lexer.tokens cs = Sentence.head tag s.block ++ s.component.tokens ++ s.clauseTokens := by
  rw [← hs, Sentence.tokens_eq, List.append_assoc]

theorem tokens_eq_vars {c : Chain} (hvars : s.vars = some c) :
    Lexer.tokens cs =
      Sentence.head tag s.block ++ s.component.tokens ++ Sentence.missingTokens s.missing ++ [.clause .with_] ++
        c.tokens ++ (Sentence.onlyTokens s.only ++ Sentence.closeTokens s.block) := by
  rw [← hs, Sentence.tokens, Sentence.openTokens, hvars, Sentence.varsTokens]
  simp only [List.append_assoc, List.cons_append, List.nil_append]

theorem lexemes_length_pos : 0 < (Lexer.lexemes 0 cs).length := by
  have hle := length_le_of_tokens (tokens_eq_component hs)
  have hcomponent := s.component.length_tokens_pos
  omega

include haccepted

theorem exact_vars {v : Located Expr} (hv : v ∈ (ofOutline tag (Lexer.lexemes 0 cs) (s.outline tag)).vars) :
    Exact cs (spanOf (Lexer.lexemes 0 cs) 0 (Lexer.lexemes 0 cs).length) v ∧
      (ofOutline tag (Lexer.lexemes 0 cs) (s.outline tag)).component.span.stop ≤ v.span.start := by
  rw [ofOutline, Sentence.outline] at hv
  cases hvars : s.vars with
  | none =>
    rw [hvars] at hv
    cases hv
  | some c =>
    rw [hvars] at hv
    obtain rfl := Option.some.inj hv
    have hbefore (ts : List Token) : (ts ++ [Token.clause .with_]).length = ts.length + 1 := List.length_append
    have hexact := exact_of_tokens haccepted (tokens_eq_vars hs hvars)
    have hnext := length_le_of_tokens (tokens_eq_vars hs hvars)
    rw [hbefore] at hexact hnext
    refine ⟨hexact, spanOf_stop_le ?_ ?_ ?_ hnext⟩
    · exact Nat.lt_add_of_pos_right s.component.length_tokens_pos
    · dsimp only [Sentence.outline]
      rw [List.length_append, List.length_append]
      omega
    · exact Nat.lt_add_of_pos_right c.length_tokens_pos

/-- What is at the place of all tokens has the same tokens, so it is the same directive. -/
theorem exists_slice_parse :
    let d := ofOutline tag (Lexer.lexemes 0 cs) (s.outline tag)
    ∃ text e, slice? cs d.span = some text ∧ Directive.parse tag 0 text = .ok e ∧ e.shift d.span.start = d := by
  intro d
  obtain ⟨text, hslice, htext, hlexemes⟩ :=
    exists_slice_spanOf haccepted (lexemes_length_pos hs) (Nat.le_refl _)
  rw [List.take_length, List.drop_zero] at hlexemes
  have htokens : s.tokens tag = Lexer.tokens text := by
    rw [hs, ← Lexer.map_token_lexemes _ text, hlexemes]
    rfl
  refine ⟨text, _, hslice, Directive.parse_eq_ok_iff.mpr ⟨htext, s, htokens, rfl⟩, ?_⟩
  rw [← Directive.ofOutline_shift htokens, ← Lexer.lexemes_eq_map]
  exact congrArg (ofOutline tag · (s.outline tag)) hlexemes

end

end Directive

/-- The places in a directive that was read from a text are exact. What is at the place of its component, and of its
variables, is read as the expression that the directive has there, and the variables come after the component. What is at
the place of the directive is read as the same directive, up to where the text begins. -/
theorem parse_places_exact {tag : String} {cs : List Char} {d : Directive} (h : Directive.parse tag 0 cs = .ok d) :
    Exact cs d.span d.component ∧
      (∀ v ∈ d.vars, Exact cs d.span v ∧ d.component.span.stop ≤ v.span.start) ∧
      OnTokens cs d.span ∧
      ∃ text e, slice? cs d.span = some text ∧ Directive.parse tag 0 text = .ok e ∧ e.shift d.span.start = d := by
  obtain ⟨haccepted, s, hs, rfl⟩ := Directive.parse_eq_ok_iff.mp h
  refine ⟨?_, ?_, ?_, ?_⟩
  · exact Directive.exact_of_tokens haccepted (Directive.tokens_eq_component hs)
  · exact fun v hv => Directive.exact_vars haccepted hs hv
  · exact Directive.onTokens_spanOf (Directive.lexemes_length_pos hs) (Nat.le_refl _)
  · exact Directive.exists_slice_parse haccepted hs

/-- `{# é #}{% render "@card" ~ b.only with {a: 1} %}` with a blank at its end -/
theorem parse_places_exact_card :
    let cs := "\x7b# é #\x7d\x7b% render \"@card\" ~ b.only with \x7ba: 1\x7d %\x7d ".toList
    ∃ d v, Directive.parse "render" 0 cs = .ok d ∧ d.span = ⟨8, 49⟩ ∧ d.vars = some v ∧
      slice? cs d.component.span = some "\"@card\" ~ b.only".toList ∧ slice? cs v.span = some "\x7ba: 1\x7d".toList ∧
      Exact cs d.span d.component ∧ Exact cs d.span v := by
  intro cs
  let card : Sentence := {
    block := true
    component := .cons (.literal (.string "@card")) (.one (.name (.ident "b") [.clause .only]))
    missing := false
    vars := some (.one (.map (.one (.word (.ident "a")) (.one (.literal (.numeral (.integer 1)))))))
    only := false }
  have haccepted : Lexer.firstRejected 0 cs = none := by decide +kernel
  have htokens : card.tokens "render" = Lexer.tokens cs := by decide +kernel
  have hparse := Directive.parse_eq_ok_iff.mpr ⟨haccepted, card, htokens, rfl⟩
  have hexact := parse_places_exact hparse
  have hspan : Directive.spanOf (Lexer.lexemes 0 cs) 0 (Lexer.lexemes 0 cs).length = ⟨8, 49⟩ := by decide +kernel
  have hcomponent : slice? cs (Directive.spanOf (Lexer.lexemes 0 cs) 2 7) = some "\"@card\" ~ b.only".toList := by
    decide +kernel
  have hvars : slice? cs (Directive.spanOf (Lexer.lexemes 0 cs) 8 13) = some "\x7ba: 1\x7d".toList := by
    decide +kernel
  exact ⟨_, _, hparse, hspan, rfl, hcomponent, hvars, hexact.1, (hexact.2.1 _ rfl).1⟩

end Inclusion
