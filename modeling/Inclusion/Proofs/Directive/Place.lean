import Inclusion.Proofs.Directive.Fault
import Inclusion.Proofs.Directive.Shift
import Inclusion.Proofs.Token.Place
/-!
# Where a directive and its faults are

The places of a directive run from one of its tokens to another, so they are places of pieces of the text. The place of
a fault begins and ends on a boundary, too, and it runs forward with one exception: when a text that begins like a
directive breaks off after a blank or a comment, the place of what is missing runs from the end of the text back to the
end of the last token (`place_of_parse_error`).
-/

namespace Inclusion

open Grammar

namespace Directive

variable {tag : String} {cs : List Char}

theorem inText_spanOf {first next : Nat} (horder : first ≤ next - 1) (hnext : next - 1 < (Lexer.lexemes 0 cs).length) :
    InText cs (spanOf (Lexer.lexemes 0 cs) first next) := by
  have hfirst := List.getElem?_eq_getElem (Nat.lt_of_le_of_lt horder hnext)
  have hlast := List.getElem?_eq_getElem hnext
  rw [spanOf, hfirst, hlast]
  exact ⟨(Lexer.inText_of_mem_lexemes (List.getElem_mem _)).start, (Lexer.inText_of_mem_lexemes (List.getElem_mem _)).stop,
    Lexer.start_le_stop_lexemes hfirst hlast horder⟩

theorem inText_of_parse {d : Directive} (h : Directive.parse tag 0 cs = .ok d) :
    InText cs d.span ∧ InText cs d.component.span := by
  obtain ⟨-, s, hs, rfl⟩ := Directive.parse_eq_ok_iff.mp h
  have hlength := congrArg List.length hs
  rw [Lexer.tokens, List.length_map] at hlength
  have hcomponent := s.component.length_tokens_pos
  simp only [Sentence.tokens, Sentence.openTokens, List.length_append] at hlength
  constructor
  · exact inText_spanOf (Nat.zero_le _) (by omega)
  · exact inText_spanOf (by dsimp only [Sentence.outline]; omega) (by dsimp only [Sentence.outline]; omega)

/-- The text begins like a directive, and a blank or a comment follows its last token. -/
structure BreaksOff (tag : String) (cs : List Char) : Prop where
  accepted : Lexer.firstRejected 0 cs = none
  viable : Viable (IsDirective tag) (Lexer.tokens cs)
  incomplete : ¬ IsDirective tag (Lexer.tokens cs)
  tokens_ne_nil : Lexer.tokens cs ≠ []
  skipped : ∃ p ∈ (Lexer.pieces cs).getLast?, p.kind = .skipped

theorem onBoundary_endOfTokens (cs : List Char) : OnBoundary cs (endOfTokens 0 cs) := by
  rw [endOfTokens]
  cases hlast : (Lexer.lexemes 0 cs).getLast? with
  | none =>
    rw [Option.map_none, Option.getD_none, Nat.zero_add]
    exact onBoundary_length cs
  | some l => exact (Lexer.inText_of_mem_lexemes (List.mem_of_mem_getLast? hlast)).stop

/-- The place of a fault is between boundaries of the text, and it runs forward unless the text breaks off. -/
theorem place_of_parse_error {f : Fault} (h : Directive.parse tag 0 cs = .error f) :
    OnBoundary cs f.span.start ∧ OnBoundary cs f.span.stop ∧ (f.span.start ≤ f.span.stop ↔ ¬ BreaksOff tag cs) := by
  cases hrejected : Lexer.firstRejected 0 cs with
  | some r =>
    have hplace : InText cs f.span := by
      rw [Directive.parse, scan, hrejected] at h
      cases h
      exact Lexer.inText_of_firstRejected hrejected
    refine ⟨hplace.start, hplace.stop, iff_of_true hplace.start_le_stop fun hbreaks => ?_⟩
    rw [hbreaks.accepted] at hrejected
    cases hrejected
  | none =>
    cases misread_of_parse hrejected h with
    | token k l hl hviable hstop hmessage hspan =>
      have hplace : InText cs f.span := hspan ▸ Lexer.inText_of_mem_lexemes (List.mem_of_getElem? hl)
      refine ⟨hplace.start, hplace.stop, iff_of_true hplace.start_le_stop fun hbreaks => hstop ?_⟩
      have hviable := hbreaks.viable
      rw [← List.take_append_drop (k + 1) (Lexer.tokens cs)] at hviable
      exact hviable.of_append
    | atEnd hviable hincomplete hmessage hspan =>
      have hend := onBoundary_endOfTokens cs
      have hle := hend.le
      have hforward := endOfTokens_eq_iff (Lexer.kind_ne_rejected hrejected) 0
      rw [Nat.zero_add] at hspan hforward
      have hiff : byteLength cs ≤ endOfTokens 0 cs ↔ endOfTokens 0 cs = byteLength cs := by omega
      rw [hspan]
      refine ⟨onBoundary_length cs, hend, ?_⟩
      rw [hiff, hforward]
      constructor
      · rintro hskipped hbreaks
        obtain ⟨p, hp, hkind⟩ := hbreaks.skipped
        exact hskipped.resolve_left hbreaks.tokens_ne_nil p hp hkind
      · intro hbreaks
        refine Classical.or_iff_not_imp_left.mpr fun htokens p hp hkind => hbreaks ?_
        exact ⟨hrejected, hviable, hincomplete, htokens, p, hp, hkind⟩

end Directive

end Inclusion
