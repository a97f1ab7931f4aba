import Inclusion.Proofs.Grammar.Parse
/-!
# Directives in a longer text

A directive that is read with an offset is the directive that is read without one, with the offset added to its
places, and likewise for its fault. The places of a directive are looked up among its tokens, and the derivation of
the directive says that all of them are there to be found.
-/

namespace Inclusion

open Grammar

def Fault.shift (f : Fault) (n : Nat) : Fault :=
  ⟨f.cause, f.span.shift n⟩

def Located.shift {α : Type} (l : Located α) (n : Nat) : Located α :=
  ⟨l.value, l.span.shift n⟩

/-- The directive in a text with `n` bytes put before it. -/
def Directive.shift (d : Directive) (n : Nat) : Directive where
  tag := d.tag
  component := d.component.shift n
  vars := d.vars.map fun e => e.shift n
  only := d.only
  ignoreMissing := d.ignoreMissing
  span := d.span.shift n

/-- A result in a text with `n` bytes put before it, given what that is for a value and for an error. -/
def shiftResult {ε α : Type} (shiftError : ε → Nat → ε) (shiftValue : α → Nat → α) (n : Nat) : Except ε α → Except ε α
  | .ok a => .ok (shiftValue a n)
  | .error e => .error (shiftError e n)

namespace Directive

theorem faultOfStop_shift (lexemes : List Lexeme) (stop : Nat) (s : Stop) (n : Nat) :
    faultOfStop (lexemes.map fun l => l.shift n) (n + stop) s = (faultOfStop lexemes stop s).shift n := by
  unfold faultOfStop
  rw [List.getElem?_map]
  cases lexemes[s.index]? with
  | some l => rfl
  | none =>
    rw [List.getLast?_map]
    have hstop : n + stop = stop + n := Nat.add_comm n stop
    cases lexemes.getLast? with
    | none => simp [Fault.shift, Span.shift, hstop]
    | some l => simp [Fault.shift, Span.shift, hstop, Lexeme.shift]

theorem spanOf_shift {lexemes : List Lexeme} {first next : Nat} (hfirst : first < lexemes.length)
    (hnext : next - 1 < lexemes.length) (n : Nat) :
    spanOf (lexemes.map fun l => l.shift n) first next = (spanOf lexemes first next).shift n := by
  unfold spanOf
  rw [List.getElem?_map, List.getElem?_map, List.getElem?_eq_getElem hfirst, List.getElem?_eq_getElem hnext]
  rfl

end Directive

namespace Grammar

theorem Chain.length_tokens_pos (c : Chain) : 0 < c.tokens.length := by
  obtain ⟨t, ts, h, -⟩ := c.tokens_eq_cons
  simp [h]

theorem Sentence.length_head_pos (tag : String) (block : Bool) : 0 < (Sentence.head tag block).length := by
  cases block <;> simp [Sentence.head]

end Grammar

/-- Every place that a sentence says is one among its tokens. -/
theorem Directive.ofOutline_shift {tag : String} {s : Sentence} {lexemes : List Lexeme}
    (h : s.tokens tag = lexemes.map Lexeme.token) (n : Nat) :
    ofOutline tag (lexemes.map fun l => l.shift n) (s.outline tag) = (ofOutline tag lexemes (s.outline tag)).shift n := by
  have hlength := congrArg List.length h
  rw [List.length_map] at hlength
  have hhead := Sentence.length_head_pos tag s.block
  have hcomponent := s.component.length_tokens_pos
  simp only [Sentence.tokens, Sentence.openTokens, List.length_append] at hlength
  unfold ofOutline Directive.shift Sentence.outline
  congr 1
  · rw [Directive.spanOf_shift (by dsimp only; omega) (by dsimp only; omega)]
    rfl
  · cases hvars : s.vars with
    | none => rfl
    | some c =>
      have hc := c.length_tokens_pos
      rw [hvars, Sentence.varsTokens, List.length_cons] at hlength
      dsimp only [Option.map_some]
      rw [Directive.spanOf_shift (by simp only [List.length_append]; omega) (by simp only [List.length_append]; omega)]
      rfl
  · rw [List.length_map, Directive.spanOf_shift (by omega) (by omega)]

theorem Directive.parse_eq_shift (tag : String) (n : Nat) (cs : List Char) :
    Directive.parse tag n cs = shiftResult Fault.shift Directive.shift n (Directive.parse tag 0 cs) := by
  rw [Directive.parse, Directive.parse, scan, scan, Lexer.firstRejected_eq_map n]
  cases Lexer.firstRejected 0 cs with
  | some r => rfl
  | none =>
    dsimp only [Option.map_none]
    rw [Lexer.map_token_lexemes, Lexer.map_token_lexemes]
    cases h : ofTokens tag (Lexer.tokens cs) with
    | error stop =>
      dsimp only
      rw [Lexer.lexemes_eq_map n, faultOfStop_shift, Nat.zero_add]
      rfl
    | ok o =>
      obtain ⟨s, hs, rfl⟩ := ofTokens_eq_ok_iff.mp h
      dsimp only
      rw [Lexer.lexemes_eq_map n, ofOutline_shift hs]
      rfl

/-- Reading a text at an offset gives what reading it at its own beginning gives: the same directive, with the offset added
to the place of the directive, of its component and of its variables, or the same fault, with the offset added to its
place. -/
theorem parse_at_offset (tag : String) (offset : Nat) (cs : List Char) :
    match Directive.parse tag 0 cs, Directive.parse tag offset cs with
    | .ok d, .ok e =>
      e.tag = d.tag ∧ e.only = d.only ∧ e.ignoreMissing = d.ignoreMissing ∧
        e.component = ⟨d.component.value, d.component.span.shift offset⟩ ∧
        e.vars = d.vars.map (fun v => ⟨v.value, v.span.shift offset⟩) ∧ e.span = d.span.shift offset
    | .error f, .error g =>
      g.cause = f.cause ∧ g.message = f.message ∧ g.expected = f.expected ∧ g.span = f.span.shift offset
    | _, _ => False := by
  rw [Directive.parse_eq_shift tag offset cs]
  cases Directive.parse tag 0 cs with
  | ok d => exact ⟨rfl, rfl, rfl, rfl, rfl, rfl⟩
  | error f => exact ⟨rfl, rfl, rfl, rfl⟩

end Inclusion
