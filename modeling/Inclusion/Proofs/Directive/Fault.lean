import Inclusion.Proofs.Grammar.Viable
import Inclusion.Proofs.Token.Piece
import Inclusion.Proofs.Token.Place
/-!
# Where the fault of a text is

A text whose characters are all accepted and that still does not parse has one fault. It stands at the first token with
which the tokens stop being viable: no directive, or no expression, begins as the text does up to and with that token,
but one does begin as the text does before it (`Misread`). If all tokens are viable, what is missing stands at the end.
The place of such a fault begins at the end of the text and goes back to the end of the last token, so it is empty only
if no blank and no comment follows that token (`endOfTokens_eq_iff`).
-/

namespace Inclusion

open Grammar

/-! ### The place of the fault -/

/-- The place where the last token of a text ends, or the end of the text if it has no tokens. -/
def endOfTokens (offset : Nat) (cs : List Char) : Nat :=
  ((Lexer.lexemes offset cs).getLast?.map (·.span.stop)).getD (offset + byteLength cs)

/-- The fault of a text that begins like a member of the language, but is none. -/
inductive Misread (language : List Token → Prop) (offset : Nat) (cs : List Char) (f : Fault) : Prop
  | token (k : Nat) (l : Lexeme) (hl : (Lexer.lexemes offset cs)[k]? = some l)
    (hviable : Viable language ((Lexer.tokens cs).take k))
    (hstop : ¬ Viable language ((Lexer.tokens cs).take (k + 1)))
    (hmessage : f.message = "Unexpected " ++ l.token.describe) (hspan : f.span = l.span)
  | atEnd (hviable : Viable language (Lexer.tokens cs)) (hincomplete : ¬ language (Lexer.tokens cs))
    (hmessage : f.message = "Unexpected end of input")
    (hspan : f.span = ⟨offset + byteLength cs, endOfTokens offset cs⟩)

/-- The fault where a reader stops that recognizes the language. -/
theorem TokenReader.Recognizes.misread {σ α : Type} {reader : TokenReader σ α} {language : List Token → Prop}
    (h : reader.Recognizes language) {offset : Nat} {cs : List Char} {s : Stop}
    (hread : reader.read (Lexer.tokens cs) = .error s) :
    Misread language offset cs (Directive.faultOfStop (Lexer.lexemes offset cs) (offset + byteLength cs) s) := by
  have hstop := h.stopsAt hread
  have hincomplete : ¬ language (Lexer.tokens cs) := by
    rw [h.mem_iff, hread]
    simp
  have htokens : Lexer.tokens cs = (Lexer.lexemes offset cs).map Lexeme.token := (Lexer.map_token_lexemes offset cs).symm
  have htoken : (Lexer.tokens cs)[s.index]? = ((Lexer.lexemes offset cs)[s.index]?).map Lexeme.token := by
    rw [htokens, List.getElem?_map]
  rw [Directive.faultOfStop]
  cases hl : (Lexer.lexemes offset cs)[s.index]? with
  | some l =>
    rw [hl, Option.map_some] at htoken
    refine .token s.index l hl hstop.viable ?_ rfl rfl
    rw [List.take_add_one, htoken]
    exact hstop.not_viable l.token htoken
  | none =>
    rw [hl, Option.map_none] at htoken
    refine .atEnd ?_ hincomplete rfl rfl
    have hviable := hstop.viable
    rwa [List.take_of_length_le (List.getElem?_eq_none_iff.mp htoken)] at hviable

/-! ### The end of the last token -/

/-- The last token ends at the end of the text, unless a blank or a comment follows it. -/
theorem endOfTokens_eq_iff {cs : List Char} (haccepted : ∀ p ∈ Lexer.pieces cs, p.kind ≠ .rejected) (offset : Nat) :
    endOfTokens offset cs = offset + byteLength cs ↔
      Lexer.tokens cs = [] ∨ ∀ p ∈ (Lexer.pieces cs).getLast?, p.kind ≠ .skipped := by
  have htext := Lexer.flatMap_text_pieces cs
  rw [endOfTokens, ← Lexer.map_token_lexemes offset cs, List.map_eq_nil_iff, Lexer.lexemes]
  obtain hnil | ⟨init, p, hsplit⟩ := List.eq_nil_or_concat (Lexer.pieces cs)
  · rw [hnil]
    exact iff_of_true rfl (.inl rfl)
  · rw [List.concat_eq_append] at hsplit
    have hp : p ∈ Lexer.pieces cs := hsplit ▸ List.mem_append_right _ List.mem_cons_self
    have hend : byteLength cs = byteLength (init.flatMap Piece.text) + byteLength p.text := by
      rw [← htext, hsplit, List.flatMap_append, List.flatMap_singleton, byteLength_append]
    rw [hsplit, Lexer.lexemesFrom_append, List.getLast?_concat]
    cases hkind : p.kind with
    | rejected => exact absurd hkind (haccepted p hp)
    | token t =>
      refine iff_of_true ?_ (.inr ?_)
      · rw [Lexer.lexemesFrom, hkind]
        simp only [Lexer.lexemesFrom, List.getLast?_concat, Option.map_some, Option.getD_some, hend, Nat.add_assoc]
      · rintro q ⟨⟩
        simp [hkind]
    | skipped =>
      have hskip : Lexer.lexemesFrom (offset + byteLength (init.flatMap Piece.text)) [p] = [] := by
        rw [Lexer.lexemesFrom, hkind]
        rfl
      rw [hskip, List.append_nil]
      cases hlast : (Lexer.lexemesFrom offset init).getLast? with
      | none => exact iff_of_true rfl (.inl (List.getLast?_eq_none_iff.mp hlast))
      | some l =>
        have hl := List.mem_of_mem_getLast? hlast
        have hle := Lexer.stop_le_of_mem_lexemesFrom hl
        have hne := (Lexer.shaped_of_mem_pieces hp).text_ne_nil (by simp [hkind])
        have hpos := List.length_pos_iff.mpr hne
        have hlength := length_le_byteLength p.text
        refine iff_of_false ?_ ?_
        · rw [Option.map_some, Option.getD_some, hend]
          omega
        · rintro (hnil | hkinds)
          · rw [hnil] at hl
            cases hl
          · exact hkinds p rfl hkind

/-! ### The fault of a text -/

theorem Directive.exists_stop_of_parse {tag : String} {offset : Nat} {cs : List Char} {f : Fault}
    (haccepted : Lexer.firstRejected offset cs = none) (h : Directive.parse tag offset cs = .error f) :
    ∃ s, Directive.ofTokens tag (Lexer.tokens cs) = .error s ∧
      f = Directive.faultOfStop (Lexer.lexemes offset cs) (offset + byteLength cs) s := by
  rw [Directive.parse, Directive.scan_eq_ok haccepted rfl] at h
  dsimp only at h
  rw [Lexer.map_token_lexemes] at h
  split at h
  · cases h
  · next s hs =>
    cases h
    exact ⟨s, hs, rfl⟩

theorem Expr.exists_stop_of_parse {text : String} {f : Fault} (haccepted : Lexer.firstRejected 0 text.toList = none)
    (h : Expr.parse text = .error f) :
    ∃ s, Expr.ofTokens (Lexer.tokens text.toList) = .error s ∧
      f = Directive.faultOfStop (Lexer.lexemes 0 text.toList) (0 + byteLength text.toList) s := by
  rw [Expr.parse, Directive.scan_eq_ok haccepted rfl] at h
  dsimp only at h
  rw [Lexer.map_token_lexemes] at h
  split at h
  · cases h
  · next s hs =>
    cases h
    exact ⟨s, hs, by rw [Nat.zero_add]⟩

theorem Directive.misread_of_parse {tag : String} {offset : Nat} {cs : List Char} {f : Fault}
    (haccepted : Lexer.firstRejected offset cs = none) (h : Directive.parse tag offset cs = .error f) :
    Misread (IsDirective tag) offset cs f := by
  obtain ⟨s, hs, rfl⟩ := Directive.exists_stop_of_parse haccepted h
  exact (Directive.recognizes tag).misread hs

/-- A text whose characters are accepted and that is no directive, or no expression, has one fault: at the first token
that cannot follow the tokens before it, or at the end if every token can. The place of the end is empty exactly when
no blank and no comment follows the last token, or when there is no token. -/
theorem misread_of_parse_error (tag : String) (offset : Nat) (text : String)
    (haccepted : Lexer.firstRejected 0 text.toList = none) :
    (∀ f, Directive.parse tag offset text.toList = .error f → Misread (IsDirective tag) offset text.toList f) ∧
      (∀ f, Expr.parse text = .error f → Misread IsExpr 0 text.toList f) ∧
      (endOfTokens offset text.toList = offset + byteLength text.toList ↔
        Lexer.tokens text.toList = [] ∨ ∀ p ∈ (Lexer.pieces text.toList).getLast?, p.kind ≠ .skipped) := by
  have hoffset := Lexer.firstRejected_of_zero haccepted offset
  refine ⟨fun f hf => Directive.misread_of_parse hoffset hf, fun f hf => ?_,
    endOfTokens_eq_iff (Lexer.kind_ne_rejected haccepted) offset⟩
  · obtain ⟨s, hs, rfl⟩ := Expr.exists_stop_of_parse haccepted hf
    exact Expr.recognizes.misread hs

/-- In `{% render "@card" ignore with %}` the fault is at `with`, which cannot follow `ignore`. -/
theorem misread_of_parse_error_card :
    let text := "\x7b% render \"@card\" ignore with %\x7d"
    Lexer.firstRejected 0 text.toList = none ∧ ∃ f, Directive.parse "render" 0 text.toList = .error f ∧
      Misread (IsDirective "render") 0 text.toList f ∧ f.span = ⟨25, 29⟩ := by
  intro text
  have haccepted : Lexer.firstRejected 0 text.toList = none := by decide +kernel
  have hlexemes : Lexer.lexemes 0 text.toList = [⟨.blockOpen, ⟨0, 2⟩⟩, ⟨.ident "render", ⟨3, 9⟩⟩,
      ⟨.string "@card", ⟨10, 17⟩⟩, ⟨.clause .ignore, ⟨18, 24⟩⟩, ⟨.clause .with_, ⟨25, 29⟩⟩,
      ⟨.blockClose, ⟨30, 32⟩⟩] := by decide +kernel
  have hparse : Directive.parse "render" 0 text.toList =
      .error ⟨.unexpected (some (.clause .with_)) [.token (.clause .missing)], ⟨25, 29⟩⟩ := by
    rw [Directive.parse, Directive.scan_eq_ok haccepted hlexemes]
    rfl
  exact ⟨haccepted, _, hparse, (misread_of_parse_error "render" 0 text haccepted).1 _ hparse, rfl⟩

/-- `{% render ` with a blank at its end is the beginning of a directive, but the place of what is missing goes back
from the end of the text to the end of the tag. -/
theorem span_of_trailing_blank :
    let text := "\x7b% render "
    Lexer.firstRejected 0 text.toList = none ∧ byteLength text.toList = 10 ∧
      Viable (IsDirective "render") (Lexer.tokens text.toList) ∧
      ∃ f, Directive.parse "render" 0 text.toList = .error f ∧ f.message = "Unexpected end of input" ∧
        f.span = ⟨10, 9⟩ ∧ f.span ≠ ⟨10, 10⟩ := by
  intro text
  have haccepted : Lexer.firstRejected 0 text.toList = none := by decide +kernel
  let card : Sentence := ⟨true, .one (.literal (.string "@card")), false, none, false⟩
  have htokens : card.tokens "render" = Lexer.tokens text.toList ++ [.string "@card", .blockClose] := by decide +kernel
  have hlexemes : Lexer.lexemes 0 text.toList = [⟨.blockOpen, ⟨0, 2⟩⟩, ⟨.ident "render", ⟨3, 9⟩⟩] := by decide +kernel
  have hlength : byteLength text.toList = 10 := by decide +kernel
  have hparse : Directive.parse "render" 0 text.toList =
      .error ⟨.unexpected none Expr.Reader.operandExpected, ⟨10, 9⟩⟩ := by
    rw [Directive.parse, Directive.scan_eq_ok haccepted hlexemes, hlength]
    rfl
  exact ⟨haccepted, hlength, ⟨_, card, htokens⟩, _, hparse, rfl, rfl, by decide⟩

end Inclusion
