import Inclusion.Proofs.Text.Slice
import Inclusion.Proofs.Token.Longest
import Inclusion.Proofs.Token.Place
/-!
# The tokens of a text and what is between them

Every token is the longest match at its place, and if nothing is rejected, then every byte of the text is in a token, in
blanks or in a comment. The tokens do not depend on what is between them: their texts with one space between each two have
the same tokens.
-/

namespace Inclusion

/-- The byte with the index `n` is in the range. -/
def Span.Holds (s : Span) (n : Nat) : Prop :=
  s.start ≤ n ∧ n < s.stop

namespace Lexer

variable {c : Char} {cs text : List Char} {before after ps : List Piece} {p : Piece} {t : Token} {l : Lexeme}
  {kind : Piece.Kind}

/-- The token is the one that the patterns give its text, and every other match at its place is shorter. -/
def IsLongestMatch (cs : List Char) (l : Lexeme) : Prop :=
  ∃ before text after, cs = before ++ text ++ after ∧ l.span = ⟨byteLength before, byteLength (before ++ text)⟩ ∧
    Matches text (.token l.token) ∧ ∀ other kind, Matches other kind → other <+: text ++ after →
      other.length < text.length ∨ other = text ∧ kind = .token l.token

/-- The place of blanks or of a comment that no token is in. -/
def IsGap (cs : List Char) (s : Span) : Prop :=
  (∃ text, slice? cs s = some text ∧ (text ∈ Pattern.blanks ∨ text ∈ Pattern.comment)) ∧
    ∀ l ∈ lexemes 0 cs, l.span.stop ≤ s.start ∨ s.stop ≤ l.span.start

/-! ### Longest matches -/

theorem kind_ne_rejected_of_token (hkind : p.kind = .token t) : p.kind ≠ .rejected := by
  rw [hkind]
  exact Piece.Kind.noConfusion

theorem isLongestMatch_of_mem (h : l ∈ lexemes 0 cs) : IsLongestMatch cs l := by
  obtain ⟨before, p, after, hsplit, hkind, hspan⟩ := exists_of_mem_lexemesFrom h
  have hrejected := kind_ne_rejected_of_token hkind
  have hmatches := matches_of_pieces hsplit hrejected
  rw [hkind] at hmatches
  refine ⟨before.flatMap Piece.text, p.text, after.flatMap Piece.text, ?_, ?_, hmatches, ?_⟩
  · rw [← flatMap_text_pieces cs, hsplit, List.flatMap_append, List.flatMap_cons, List.append_assoc]
  · rw [hspan, Nat.zero_add, Nat.zero_add, List.flatMap_append, List.flatMap_singleton]
  · intro other kind hother hbegins
    have hlength := length_le_of_pieces hsplit hrejected hother hbegins
    have hwithin := List.prefix_of_prefix_length_le hbegins (List.prefix_append _ _) hlength
    rcases Nat.lt_or_eq_of_le hlength with hshorter | hlength
    · exact .inl hshorter
    · obtain rfl := hwithin.eq_of_length hlength
      exact .inr ⟨rfl, hother.unique hmatches⟩

theorem start_lt_stop_of_mem (h : l ∈ lexemes 0 cs) : l.span.start < l.span.stop := by
  obtain ⟨before, text, after, -, hspan, hmatches, -⟩ := isLongestMatch_of_mem h
  have hlength := Nat.lt_of_lt_of_le (List.length_pos_iff.mpr hmatches.ne_nil) (length_le_byteLength text)
  rw [hspan, byteLength_append]
  exact Nat.lt_add_of_pos_right hlength

/-! ### Every byte -/

theorem exists_piece {n : Nat} (h : n < byteLength (ps.flatMap Piece.text)) : ∃ before p after, ps = before ++ p :: after ∧
    byteLength (before.flatMap Piece.text) ≤ n ∧ n < byteLength ((before ++ [p]).flatMap Piece.text) := by
  induction ps generalizing n with
  | nil => cases h
  | cons p ps ih =>
    by_cases hfirst : n < byteLength p.text
    · exact ⟨[], p, ps, rfl, Nat.zero_le n, by simpa using hfirst⟩
    · rw [List.flatMap_cons, byteLength_append] at h
      obtain ⟨before, q, after, rfl, hstart, hstop⟩ := ih (n := n - byteLength p.text) (by omega)
      refine ⟨p :: before, q, after, rfl, ?_, ?_⟩
      · rw [List.flatMap_cons, byteLength_append]
        omega
      · rw [List.cons_append, List.flatMap_cons, byteLength_append]
        omega

theorem matches_skipped (h : Matches text .skipped) : text ∈ Pattern.blanks ∨ text ∈ Pattern.comment := by
  generalize hkind : Piece.Kind.skipped = kind at h
  cases h with
  | comment h => exact .inr h
  | blanks h => exact .inl h
  | integer =>
    rw [integerKind] at hkind
    split at hkind <;> cases hkind
  | _ => cases hkind

theorem lexemesFrom_of_token (hkind : p.kind = .token t) (start : Nat) (after : List Piece) : lexemesFrom start (p :: after) =
    ⟨t, ⟨start, start + byteLength p.text⟩⟩ :: lexemesFrom (start + byteLength p.text) after := by
  rw [lexemesFrom, hkind]

theorem lexemesFrom_of_skipped (hkind : p.kind = .skipped) (start : Nat) (after : List Piece) :
    lexemesFrom start (p :: after) = lexemesFrom (start + byteLength p.text) after := by
  rw [lexemesFrom, hkind]

theorem isGap_of_pieces (h : pieces cs = before ++ p :: after) (hkind : p.kind = .skipped) :
    IsGap cs ⟨byteLength (before.flatMap Piece.text), byteLength ((before ++ [p]).flatMap Piece.text)⟩ := by
  have hmatches := matches_of_pieces h (by simp [hkind])
  rw [hkind] at hmatches
  refine ⟨⟨p.text, slice?_eq_some_iff.mpr ⟨before.flatMap Piece.text, after.flatMap Piece.text, ?_, ?_⟩,
    matches_skipped hmatches⟩, ?_⟩
  · rw [← flatMap_text_pieces cs, h, List.flatMap_append, List.flatMap_cons, List.append_assoc]
  · rw [List.flatMap_append, List.flatMap_singleton]
  · intro l hl
    rw [lexemes, h, lexemesFrom_append, lexemesFrom_of_skipped hkind, Nat.zero_add] at hl
    cases List.mem_append.mp hl with
    | inl hl =>
      have hstop := stop_le_of_mem_lexemesFrom hl
      rw [Nat.zero_add] at hstop
      exact .inl hstop
    | inr hl =>
      have hstart := start_le_of_mem_lexemesFrom hl
      rw [← byteLength_append, ← List.flatMap_singleton Piece.text p, ← List.flatMap_append] at hstart
      exact .inr hstart

theorem holds_or_isGap (h : firstRejected 0 cs = none) {n : Nat} (hn : n < byteLength cs) :
    (∃ l ∈ lexemes 0 cs, l.span.Holds n) ∨ ∃ s, s.Holds n ∧ IsGap cs s := by
  rw [← flatMap_text_pieces cs] at hn
  obtain ⟨before, p, after, hsplit, hstart, hstop⟩ := exists_piece hn
  have hrejected : p.kind ≠ .rejected := kind_ne_rejected h p (by simp [hsplit])
  cases hkind : p.kind with
  | rejected => exact absurd hkind hrejected
  | skipped => exact .inr ⟨_, ⟨hstart, hstop⟩, isGap_of_pieces hsplit hkind⟩
  | token t =>
    rw [List.flatMap_append, List.flatMap_singleton, byteLength_append] at hstop
    refine .inl ⟨⟨t, _, _⟩, ?_, hstart, hstop⟩
    rw [lexemes, hsplit, lexemesFrom_append, lexemesFrom_of_token hkind, Nat.zero_add]
    exact List.mem_append_right _ List.mem_cons_self

/-! ### Single spaces -/

/-- The pieces that are tokens. -/
def tokenPieces (cs : List Char) : List Piece :=
  (pieces cs).filter fun p => p.token?.isSome

theorem mapM_slice?_lexemesFrom (before : List Char) (hcs : cs = before ++ ps.flatMap Piece.text) :
    (lexemesFrom (byteLength before) ps).mapM (fun l => slice? cs l.span) =
      some ((ps.filter fun p => p.token?.isSome).map Piece.text) := by
  induction ps generalizing before with
  | nil => rfl
  | cons p ps ih =>
    have hparts : cs = before ++ p.text ++ ps.flatMap Piece.text := by
      rw [hcs, List.flatMap_cons, List.append_assoc]
    have hrest := ih (before ++ p.text) hparts
    rw [byteLength_append] at hrest
    rw [lexemesFrom]
    cases hkind : p.kind with
    | token t =>
      have hslice : slice? cs ⟨byteLength before, byteLength before + byteLength p.text⟩ = some p.text :=
        slice?_eq_some_iff.mpr ⟨before, _, hparts, by rw [byteLength_append]⟩
      simp [List.mapM_cons, hslice, hrest, Piece.token?, hkind]
    | _ => simpa [Piece.token?, hkind] using hrest

/-- A token is read from its text alone. -/
theorem munch_of_mem_tokenPieces (h : p ∈ tokenPieces cs) :
    ∃ t c rest, p = ⟨.token t, c :: rest⟩ ∧ munch c rest = (.token t, rest.length) := by
  obtain ⟨hmem, htoken⟩ := List.mem_filter.mp h
  obtain ⟨before, after, hsplit⟩ := List.append_of_mem hmem
  obtain ⟨kind, text⟩ := p
  cases kind with
  | token t =>
    have hmatches := matches_of_pieces hsplit Piece.Kind.noConfusion
    obtain ⟨c, rest, rfl⟩ := List.exists_cons_of_ne_nil hmatches.ne_nil
    exact ⟨t, c, rest, rfl, munch_of_matches hmatches⟩
  | _ => cases htoken

theorem isBlank_eq_false_of_munch {n : Nat} {rest : List Char} (h : munch c rest = (.token t, n)) : isBlank c = false := by
  refine Bool.eq_false_iff.mpr fun hblank => ?_
  rw [munch_blank hblank] at h
  cases h

theorem lexes_intercalate (h : ∀ p ∈ ps, ∃ t c rest, p = ⟨.token t, c :: rest⟩ ∧ munch c rest = (.token t, rest.length)) :
    Lexes ([' '].intercalate (ps.map Piece.text)) (ps.filterMap Piece.token?) := by
  induction ps with
  | nil => exact Lexes.nil
  | cons p ps ih =>
    obtain ⟨⟨t, c, rest, rfl, hmunch⟩, hothers⟩ := List.forall_mem_cons.mp h
    cases ps with
    | nil =>
      have hlone := Lexes.nil.of_munch rest (c := c) (t := t) (by rwa [List.append_nil])
      rw [List.append_nil] at hlone
      rwa [List.map_singleton, List.intercalate_singleton]
    | cons q ps =>
      have hkind : (munch c rest).1 ≠ .rejected := by
        rw [hmunch]
        exact Piece.Kind.noConfusion
      rw [List.map_cons, List.map_cons, List.intercalate_cons_cons, List.append_assoc]
      refine (ih hothers).blank.of_munch rest ?_
      rw [← hmunch]
      exact munch_append_blank (isBlank_eq_false_of_munch hmunch) hkind _

theorem lexes_tokenPieces (cs : List Char) : Lexes ([' '].intercalate ((tokenPieces cs).map Piece.text)) (tokens cs) := by
  have htokens : (tokenPieces cs).filterMap Piece.token? = tokens cs := by
    rw [tokenPieces, List.filterMap_filter, tokens_eq_filterMap]
    refine List.filterMap_congr fun p _ => ?_
    cases p.token? <;> rfl
  rw [← htokens]
  exact lexes_intercalate fun p hp => munch_of_mem_tokenPieces hp

/-- The tokens of a text: none is empty, they follow one another between its characters, and each is the longest match at its
place. If nothing is rejected, then every byte is in a token, in blanks or in a comment, and the texts of the tokens with
single spaces between them have the same tokens. -/
theorem lexemes_tile (cs : List Char) :
    (∀ l ∈ lexemes 0 cs, l.span.start < l.span.stop ∧ InText cs l.span ∧ IsLongestMatch cs l) ∧
      ((lexemes 0 cs).Pairwise fun a b => a.span.stop ≤ b.span.start) ∧
      (firstRejected 0 cs = none →
        (∀ n < byteLength cs, (∃ l ∈ lexemes 0 cs, l.span.Holds n) ∨ ∃ s, s.Holds n ∧ IsGap cs s) ∧
        ∃ texts, (lexemes 0 cs).mapM (fun l => slice? cs l.span) = some texts ∧
          firstRejected 0 ([' '].intercalate texts) = none ∧ tokens ([' '].intercalate texts) = tokens cs) := by
  refine ⟨fun l hl => ⟨start_lt_stop_of_mem hl, inText_of_mem_lexemes hl, isLongestMatch_of_mem hl⟩,
    pairwise_lexemesFrom 0 (pieces cs), fun h => ⟨fun n hn => holds_or_isGap h hn, ?_⟩⟩
  have hslices := mapM_slice?_lexemesFrom [] (flatMap_text_pieces cs).symm
  have hlexes := lexes_tokenPieces cs
  refine ⟨_, hslices, ?_, ?_⟩
  · exact firstRejectedFrom_eq_none 0 fun p hp => (hlexes.pieces p hp).1
  · rw [tokens_eq_filterMap]
    exact hlexes.tokens

theorem lexemes_tile_comment :
    let cs := "with 1.5\x7b# a #\x7donly'-'".toList
    firstRejected 0 cs = none ∧
      lexemes 0 cs = [⟨.clause .with_, ⟨0, 4⟩⟩, ⟨.float (Binary64.ofDecimal false 15 (-1)), ⟨5, 8⟩⟩,
        ⟨.clause .only, ⟨15, 19⟩⟩, ⟨.string "-", ⟨19, 22⟩⟩] ∧
      (∃ s, s.Holds 10 ∧ IsGap cs s) ∧
      tokens "with 1.5 only '-'".toList = tokens cs := by
  intro cs
  have hrejected : firstRejected 0 cs = none := by decide +kernel
  have hlexemes : lexemes 0 cs = [⟨.clause .with_, ⟨0, 4⟩⟩, ⟨.float (Binary64.ofDecimal false 15 (-1)), ⟨5, 8⟩⟩,
      ⟨.clause .only, ⟨15, 19⟩⟩, ⟨.string "-", ⟨19, 22⟩⟩] := by decide +kernel
  obtain ⟨-, -, hgaps⟩ := lexemes_tile cs
  obtain ⟨hbytes, texts, htexts, -, htokens⟩ := hgaps hrejected
  refine ⟨hrejected, hlexemes, ?_, ?_⟩
  · rcases hbytes 10 (by decide) with ⟨l, hl, hholds⟩ | hgap
    · rw [hlexemes] at hl
      simp only [List.mem_cons, List.not_mem_nil, or_false] at hl
      rcases hl with rfl | rfl | rfl | rfl <;> simp [Span.Holds] at hholds
    · exact hgap
  · have hcut : (lexemes 0 cs).mapM (fun l => slice? cs l.span) =
        some ["with".toList, "1.5".toList, "only".toList, "'-'".toList] := by decide +kernel
    obtain rfl := Option.some.inj (htexts.symm.trans hcut)
    exact htokens

end Lexer

end Inclusion
