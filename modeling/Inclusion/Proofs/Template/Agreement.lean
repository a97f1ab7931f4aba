import Inclusion.Proofs.Grammar.Block
import Inclusion.Proofs.Grammar.Parse
import Inclusion.Proofs.Template.Opening
import Inclusion.Proofs.Token.Piece
/-!
# The scan for blocks and the directives

A directive in a block, put into a template, is to be found as one block. The scan for blocks does not take comments
inside a block out, so this can fail for a directive with comments. It is found in every template exactly when no
comment stands before the tag and, its comments read as text, no quote is open at its end (`OutsideQuotes`); without
comments that is always so.
-/

namespace Inclusion

open Grammar
open Template (quoteAfter EndsWhole blockLength firstWord)

/-- The text of a directive between the opening and the closing of its block. -/
def inside (text : List Char) : List Char :=
  (text.drop 2).dropLast.dropLast

/-- The scan for the end of the block comes to the closing of the directive, and outside quotes. -/
def OutsideQuotes (text : List Char) : Prop :=
  quoteAfter none (inside text) = some none

/-- No comment stands between the opening of the block and the tag. -/
def TagFirst (tag : String) (text : List Char) : Prop :=
  ∀ p ∈ (Lexer.pieces text).takeWhile fun p => p.kind ≠ .token (.ident tag), ¬ p.IsComment

/-! ### The first word -/

theorem isSpace_of_isBlank {c : Char} (h : isBlank c = true) : isSpace c = true := by
  simp only [isBlank, Bool.or_eq_true, decide_eq_true_eq] at h
  rcases h with ((rfl | rfl) | rfl) | rfl <;> decide

theorem trimStart_eq {cs rest : List Char} {c : Char} (h : cs.dropWhile isBlank = c :: rest)
    (hc : isSpace c = false) : trimStart cs = c :: rest := by
  unfold trimStart
  conv => lhs; rw [← List.takeWhile_append_dropWhile (p := isBlank) (l := cs), h]
  rw [List.dropWhile_append_of_pos fun d hd => isSpace_of_isBlank (List.mem_takeWhile_imp hd)]
  exact List.dropWhile_cons_of_neg (by simp [hc])

/-- After its blanks, a text begins with a comment or with its first token. -/
theorem comment_or_token {cs : List Char} {t : Token} {ts : List Token}
    (htokens : (Lexer.pieces cs).filterMap Piece.token? = t :: ts) (hkinds : ∀ p ∈ Lexer.pieces cs, p.kind ≠ .rejected) :
    ∃ c rest, cs.dropWhile isBlank = c :: rest ∧
      (c = '{' ∧ (Lexer.munch c rest).1 = .skipped ∨ (Lexer.munch c rest).1 = .token t) := by
  obtain ⟨blanks, hblanks, hpieces⟩ := Lexer.exists_blanks cs
  rw [hpieces] at htokens hkinds
  have hnone : blanks.filterMap Piece.token? = [] := by
    refine List.filterMap_eq_nil_iff.mpr fun p hp => ?_
    rw [Piece.token?, (hblanks p hp).1]
  rw [List.filterMap_append, hnone, List.nil_append] at htokens
  cases hrest : cs.dropWhile isBlank with
  | nil =>
    rw [hrest, Lexer.pieces] at htokens
    cases htokens
  | cons c rest =>
    refine ⟨c, rest, rfl, ?_⟩
    have hc : ¬ isBlank c = true := by
      have hne : cs.dropWhile isBlank ≠ [] := by simp [hrest]
      have := List.head_dropWhile_not isBlank hne
      simpa [hrest] using this
    rw [hrest, Lexer.pieces_cons] at htokens hkinds
    have hkind := hkinds _ (List.mem_append_right _ List.mem_cons_self)
    have hshaped := Lexer.shaped_munch c rest
    cases hk : (Lexer.munch c rest).1 with
    | rejected => exact absurd hk hkind
    | token u =>
      right
      simp [Piece.token?, hk] at htokens
      rw [htokens.1]
    | skipped =>
      left
      rw [hk] at hshaped
      generalize rest.take (Lexer.munch c rest).2 = text at hshaped
      cases hshaped with
      | blank _ h => exact absurd (h c List.mem_cons_self) hc
      | comment body => exact ⟨rfl, rfl⟩

/-! ### A directive taken apart -/

/-- The pieces of a directive in a block, after its opening: those between, and the closing. -/
structure Dissected (tag : String) (r : List Char) (mid : List Piece) (sign : List Char) : Prop where
  pieces : Lexer.pieces (afterSign r) = mid ++ [⟨.token .blockClose, sign ++ ['%', '}']⟩]
  sign : sign = [] ∨ sign = ['-'] ∨ sign = ['~']
  tokens : ∃ inner, mid.filterMap Piece.token? = .ident tag :: inner
  kinds : ∀ p ∈ mid, p.kind ≠ .rejected ∧ p.kind ≠ .token .blockOpen ∧ p.kind ≠ .token .blockClose

/-- A text that ends as a block does ends in no comment and in no blank. -/
theorem token_of_last {before : List Char} {p : Piece} (hshaped : Lexer.Shaped p) (hrejected : p.kind ≠ .rejected)
    (hclose : ['%', '}'] <:+ before ++ p.text) : ∃ t, p.kind = .token t := by
  obtain ⟨x, hx⟩ := hclose
  cases hshaped with
  | blank hne h =>
    exfalso
    have hlast := congrArg List.getLast? hx
    rw [List.getLast?_append, List.getLast?_append, List.getLast?_eq_some_getLast hne] at hlast
    have hmem := List.getLast_mem hne
    have := h _ hmem
    simp only [List.getLast?_cons_cons, List.getLast?_singleton, Option.some_or, Option.some.injEq] at hlast
    rw [← hlast] at this
    exact absurd this (by decide)
  | comment body =>
    exfalso
    have hassoc : before ++ '{' :: '#' :: (body ++ ['#', '}']) = (before ++ '{' :: '#' :: body) ++ ['#', '}'] := by simp
    have hends := (List.append_inj' (hx.trans hassoc) rfl).2
    exact absurd hends (by decide)
  | rejected => exact absurd rfl hrejected
  | _ => exact ⟨_, rfl⟩

theorem kind_ne_of_inner {ps : List Piece} (h : ∀ t ∈ ps.filterMap Piece.token?, t ≠ .blockOpen ∧ t ≠ .blockClose)
    {p : Piece} (hp : p ∈ ps) : p.kind ≠ .token .blockOpen ∧ p.kind ≠ .token .blockClose := by
  have hmem {t : Token} (ht : p.kind = .token t) : t ∈ ps.filterMap Piece.token? :=
    List.mem_filterMap.mpr ⟨p, hp, by rw [Piece.token?, ht]⟩
  exact ⟨fun ht => (h _ (hmem ht)).1 rfl, fun ht => (h _ (hmem ht)).2 rfl⟩

theorem exists_dissected {tag : String} {offset : Nat} {r : List Char} {d : Directive}
    (hclose : ['%', '}'] <:+ '{' :: '%' :: r) (hparse : Directive.parse tag offset ('{' :: '%' :: r) = .ok d) :
    ∃ mid sign, Dissected tag r mid sign := by
  obtain ⟨hrejected, s, hs, -⟩ := Directive.parse_eq_ok_iff.mp hparse
  have hkinds := Lexer.kind_ne_rejected hrejected
  rw [Lexer.tokens_eq_filterMap, pieces_opening] at hs
  rw [pieces_opening] at hkinds
  obtain ⟨inner, hinner, htokens⟩ := s.exists_inner hs
  have hne : Lexer.pieces (afterSign r) ≠ [] := by
    intro h
    rw [h] at htokens
    cases htokens
  obtain ⟨mid, last, hpieces⟩ := (List.eq_nil_or_concat _).resolve_left hne
  rw [List.concat_eq_append] at hpieces
  have hmem : last ∈ Lexer.pieces (afterSign r) := by
    rw [hpieces]
    exact List.mem_append_right _ List.mem_cons_self
  have hlast := hkinds last (List.mem_cons_of_mem _ hmem)
  have hshaped := Lexer.shaped_of_mem_pieces hmem
  have htext : '{' :: '%' :: r = '{' :: '%' :: (signOf r ++ mid.flatMap Piece.text) ++ last.text := by
    conv => lhs; rw [eq_of_pieces_afterSign hpieces]
    simp
  rw [hpieces, List.filterMap_append] at htokens
  obtain ⟨t, ht⟩ := token_of_last hshaped hlast (htext ▸ hclose)
  have hsingle : [last].filterMap Piece.token? = [t] := by
    simp [Piece.token?, ht]
  rw [hsingle, ← List.cons_append] at htokens
  obtain ⟨hmid, hlasttoken⟩ := List.append_inj' htokens rfl
  have ht' : t = .blockClose := by simpa using hlasttoken
  rw [ht'] at ht
  have hinner' : ∀ u ∈ mid.filterMap Piece.token?, u ≠ .blockOpen ∧ u ≠ .blockClose := by
    rw [hmid]
    exact inner_cons (by simp) hinner
  obtain ⟨sign, hsign, hlast'⟩ := hshaped.exists_sign ht
  refine ⟨mid, sign, hlast' ▸ hpieces, hsign, ⟨inner, hmid⟩, fun p hp => ⟨?_, kind_ne_of_inner hinner' hp⟩⟩
  exact hkinds p (List.mem_cons_of_mem _ (hpieces ▸ List.mem_append_left _ hp))

namespace Dissected

variable {tag : String} {r : List Char} {mid : List Piece} {sign : List Char}

theorem text (h : Dissected tag r mid sign) :
    r = signOf r ++ mid.flatMap Piece.text ++ sign ++ ['%', '}'] := by
  conv => lhs; rw [eq_of_pieces_afterSign h.pieces]
  simp

theorem inside (h : Dissected tag r mid sign) :
    inside ('{' :: '%' :: r) = signOf r ++ mid.flatMap Piece.text ++ sign := by
  unfold Inclusion.inside
  conv => lhs; rw [h.text]
  rw [List.drop_succ_cons, List.drop_succ_cons, List.drop_zero, List.dropLast_append_of_ne_nil (by simp)]
  exact List.dropLast_concat

theorem shaped (h : Dissected tag r mid sign) {p : Piece} (hp : p ∈ mid) : Lexer.Shaped p := by
  have hmem : p ∈ Lexer.pieces (afterSign r) := h.pieces ▸ List.mem_append_left _ hp
  exact Lexer.shaped_of_mem_pieces hmem

theorem endsWhole (h : Dissected tag r mid sign) : EndsWhole (signOf r ++ mid.flatMap Piece.text ++ sign) := by
  rcases h.sign with rfl | rfl | rfl
  · obtain ⟨inner, htokens⟩ := h.tokens
    have hne : mid ≠ [] := by
      rintro rfl
      cases htokens
    obtain ⟨init, p, hmid⟩ := (List.eq_nil_or_concat _).resolve_left hne
    rw [List.concat_eq_append] at hmid
    have hp : p ∈ mid := hmid ▸ List.mem_append_right _ List.mem_cons_self
    have hkinds := h.kinds p hp
    have hwhole := (h.shaped hp).endsWhole hkinds.1 hkinds.2.1
    rw [hmid, List.flatMap_append, List.flatMap_singleton, List.append_nil, ← List.append_assoc]
    exact hwhole.append ((h.shaped hp).text_ne_nil hkinds.1)
  · exact Template.endsWhole_concat _ (by decide)
  · exact Template.endsWhole_concat _ (by decide)

/-- Comments that leave no quote open, each for itself, do no harm. -/
theorem outsideQuotes (h : Dissected tag r mid sign)
    (hcomments : ∀ p ∈ mid, p.IsComment → quoteAfter none p.text = some none) :
    OutsideQuotes ('{' :: '%' :: r) := by
  obtain ⟨hwhole, hsign⟩ := Template.endsWhole_and_quoteAfter_sign (signOf_cases r)
  have hpieces : ∀ p ∈ mid, EndsWhole p.text ∧ quoteAfter none p.text = some none := by
    intro p hp
    obtain ⟨hrejected, hopen, hclose⟩ := h.kinds p hp
    refine ⟨(h.shaped hp).endsWhole hrejected hopen, ?_⟩
    by_cases hcomment : p.IsComment
    · exact hcomments p hp hcomment
    · exact (h.shaped hp).quoteAfter hrejected hopen hclose hcomment
  unfold OutsideQuotes
  rw [h.inside, List.append_assoc, Template.quoteAfter_append hwhole, hsign, Option.bind_some,
    Lexer.quoteAfter_flatMap_append hpieces]
  exact (Template.endsWhole_and_quoteAfter_sign h.sign).2

theorem outsideQuotes_of_no_comment (h : Dissected tag r mid sign)
    (hcomments : ∀ p ∈ Lexer.pieces ('{' :: '%' :: r), ¬ p.IsComment) : OutsideQuotes ('{' :: '%' :: r) := by
  refine h.outsideQuotes fun p hp hcomment => absurd hcomment (hcomments p ?_)
  rw [pieces_opening, h.pieces]
  exact List.mem_cons_of_mem _ (List.mem_append_left _ hp)

/-- The scan for blocks finds the tag unless a comment stands before it. -/
theorem firstWord_eq_iff (h : Dissected tag r mid sign) :
    firstWord ('{' :: '%' :: r) = some tag ↔ TagFirst tag ('{' :: '%' :: r) := by
  obtain ⟨inner, htokens⟩ := h.tokens
  have hall : (Lexer.pieces (afterSign r)).filterMap Piece.token? = .ident tag :: (inner ++ [.blockClose]) := by
    rw [h.pieces, List.filterMap_append, htokens]
    rfl
  have hkinds : ∀ p ∈ Lexer.pieces (afterSign r), p.kind ≠ .rejected := by
    intro p hp
    rw [h.pieces] at hp
    cases List.mem_append.mp hp with
    | inl hp => exact (h.kinds p hp).1
    | inr hp =>
      rw [List.mem_singleton.mp hp]
      simp
  obtain ⟨c, rest, hrest, hfirst⟩ := comment_or_token hall hkinds
  obtain ⟨blanks, hblanks, hpieces⟩ := Lexer.exists_blanks (afterSign r)
  rw [hrest, Lexer.pieces_cons] at hpieces
  -- Neither the opening nor a blank is a comment or the tag.
  have hbefore : ∀ p ∈ (⟨.token .blockOpen, '{' :: '%' :: signOf r⟩ : Piece) :: blanks,
      (decide (p.kind ≠ .token (.ident tag))) = true ∧ ¬ p.IsComment := by
    intro p hp
    cases List.mem_cons.mp hp with
    | inl hp => simp [hp, Piece.IsComment]
    | inr hp =>
      obtain ⟨hkind, hcomment⟩ := hblanks p hp
      exact ⟨by simp [hkind], hcomment⟩
  rw [firstWord_opening, TagFirst, pieces_opening, hpieces, ← List.cons_append,
    List.takeWhile_append_of_pos fun p hp => (hbefore p hp).1]
  cases hfirst with
  | inl hfirst =>
    obtain ⟨rfl, hkind⟩ := hfirst
    rw [trimStart_eq hrest (by decide), List.takeWhile_cons_of_neg (by decide)]
    refine iff_of_false (by simp) fun hfirst => ?_
    have hcomment : Piece.IsComment ⟨(Lexer.munch '{' rest).1, '{' :: rest.take (Lexer.munch '{' rest).2⟩ := ⟨hkind, rfl⟩
    refine hfirst _ (List.mem_append_right _ ?_) hcomment
    rw [List.takeWhile_cons_of_pos (by simp [hkind])]
    exact List.mem_cons_self
  | inr hkind =>
    obtain ⟨hname, hword⟩ := Lexer.munch_ident hkind
    have hc := Lexer.isWordChar_of_isNameStart hname
    rw [trimStart_eq hrest (Lexer.isSpace_eq_false_of_isWordChar hc), List.takeWhile_cons_of_pos hc]
    refine iff_of_true (congrArg some hword.symm) ?_
    intro p hp
    rw [List.takeWhile_cons_of_neg (by simp [hkind]), List.append_nil] at hp
    exact (hbefore p hp).2

end Dissected

theorem tagFirst_of_no_comment {tag : String} {text : List Char} (h : ∀ p ∈ Lexer.pieces text, ¬ p.IsComment) : TagFirst tag text := by
  intro p hp
  exact h p ((List.takeWhile_prefix _).subset hp)

/-! ### The block of a directive -/

/-- A text that is closed as a block is closed ends in a token. -/
theorem kind_ne_skipped_of_closed {cs : List Char} (hclose : ['%', '}'] <:+ cs) :
    ∀ p ∈ (Lexer.pieces cs).getLast?, p.kind ≠ .skipped := by
  intro p hp hkind
  obtain ⟨init, hinit⟩ := List.getLast?_eq_some_iff.mp hp
  have hmem : p ∈ Lexer.pieces cs := List.mem_of_mem_getLast? hp
  rw [← Lexer.flatMap_text_pieces cs, hinit, List.flatMap_append, List.flatMap_singleton] at hclose
  obtain ⟨t, ht⟩ := token_of_last (Lexer.shaped_of_mem_pieces hmem) (by simp [hkind]) hclose
  rw [hkind] at ht
  cases ht

theorem first_block_of_blockLength {tags : List String} {tag : String} {p r q : List Char} (htag : tag ∈ tags) (hp : '{' ∉ p)
    (hword : firstWord ('{' :: '%' :: r) = some tag) (hlength : blockLength none (r ++ q) = r.length) :
    (Template.blocks tags (p ++ '{' :: '%' :: r ++ q)).head? = some ⟨tag, '{' :: '%' :: r, byteLength p⟩ := by
  rw [Template.blocks, List.append_assoc, Template.blocksFrom_append hp, List.cons_append, List.cons_append,
    Template.pieces_block, hlength, List.take_left, Template.blocksFrom_block hword htag, List.head?_cons,
    Nat.zero_add]

theorem blockLength_of_first_block {tags : List String} {tag : String} {r q : List Char}
    (h : (Template.blocks tags ('{' :: '%' :: r ++ q)).head? = some ⟨tag, '{' :: '%' :: r, 0⟩) :
    firstWord ('{' :: '%' :: r) = some tag ∧ (r ++ q).take (blockLength none (r ++ q)) = r := by
  rw [Template.blocks, List.cons_append, List.cons_append, Template.pieces_block] at h
  generalize (r ++ q).take (blockLength none (r ++ q)) = taken at h ⊢
  cases Template.blocksFrom_cons tags 0 (.block, '{' :: '%' :: taken)
      (Template.pieces ((r ++ q).drop (blockLength none (r ++ q)))) with
  | inl heq =>
    exfalso
    rw [heq] at h
    have hstart := Template.start_le_of_mem_blocksFrom (List.mem_of_mem_head? h)
    have hpos : 0 < byteLength ('{' :: '%' :: taken) := Nat.lt_of_lt_of_le (by simp) (length_le_byteLength _)
    simp only [Nat.zero_add] at hstart
    omega
  | inr heq =>
    obtain ⟨t, -, hword, -, heq⟩ := heq
    rw [heq] at h
    simp only [List.head?_cons, Option.some.injEq, Template.Block.mk.injEq, List.cons.injEq, true_and, and_true] at h
    obtain ⟨rfl, htaken⟩ := h
    exact ⟨htaken ▸ hword, htaken⟩

/-- In every template that the text is put into, with no brace before it, the first block with one of the tags is the
text. -/
def FoundAmong (tags : List String) (tag : String) (text : List Char) : Prop :=
  ∀ before after : List Char, '{' ∉ before →
    (Template.blocks tags (before ++ text ++ after)).head? = some ⟨tag, text, byteLength before⟩

/-- In every template that the text is put into, with no brace before it, the first block with the tag is the text. -/
def Found (tag : String) (text : List Char) : Prop :=
  ∀ before after : List Char, '{' ∉ before →
    (Template.blocks [tag] (before ++ text ++ after)).head? = some ⟨tag, text, byteLength before⟩

theorem foundAmong_iff {tags : List String} {tag : String} {inner : List Char} (htag : tag ∈ tags) (hwhole : EndsWhole inner) :
    FoundAmong tags tag ('{' :: '%' :: (inner ++ ['%', '}'])) ↔
      firstWord ('{' :: '%' :: (inner ++ ['%', '}'])) = some tag ∧ quoteAfter none inner = some none := by
  constructor
  · intro h
    -- A blank after the directive tells a block that is closed from one that only comes to the end.
    obtain ⟨hword, htake⟩ := blockLength_of_first_block (h [] [' '] (by simp))
    refine ⟨hword, Template.quoteAfter_of_blockLength hwhole ?_⟩
    rw [List.append_assoc] at htake
    have hlength := congrArg List.length htake
    simp only [List.length_take, List.length_append, List.length_cons, List.length_nil, List.cons_append,
      List.nil_append] at hlength
    omega
  · rintro ⟨hword, hquotes⟩ before after hbefore
    refine first_block_of_blockLength htag hbefore hword ?_
    rw [List.append_assoc, List.cons_append, List.singleton_append, Template.blockLength_append_close hwhole hquotes,
      List.length_append]
    rfl

/-- The scan for the end of the block comes to one before the closing of the directive. -/
def ClosesEarly (text : List Char) : Prop :=
  quoteAfter none (inside text) = none

/-- In a template that is nothing else, a block is also whole if a quote is open at its end. -/
theorem blocks_eq_singleton_iff {tags : List String} {tag : String} {inner : List Char} (htag : tag ∈ tags)
    (hwhole : EndsWhole inner) (hword : firstWord ('{' :: '%' :: (inner ++ ['%', '}'])) = some tag) :
    Template.blocks tags ('{' :: '%' :: (inner ++ ['%', '}'])) = [⟨tag, '{' :: '%' :: (inner ++ ['%', '}']), 0⟩] ↔
      quoteAfter none inner ≠ none := by
  constructor
  · intro h hclosed
    have hhead : (Template.blocks tags ('{' :: '%' :: (inner ++ ['%', '}']) ++ [])).head? =
        some ⟨tag, '{' :: '%' :: (inner ++ ['%', '}']), 0⟩ := by
      rw [List.append_nil, h, List.head?_cons]
    have htake := congrArg List.length (blockLength_of_first_block hhead).2
    have hle := Template.blockLength_append_le hclosed ['%', '}']
    simp only [List.append_nil, List.length_take, List.length_append, List.length_cons, List.length_nil] at htake
    omega
  · intro h
    obtain ⟨quote, hquote⟩ := Option.ne_none_iff_exists'.mp h
    have hlength : blockLength none (inner ++ ['%', '}']) = (inner ++ ['%', '}']).length := by
      rw [Template.blockLength_append hwhole hquote, Template.blockLength_close, List.length_append]
      rfl
    rw [Template.blocks, Template.pieces_block, hlength, List.take_length, List.drop_length,
      Template.blocksFrom_block hword htag, Template.pieces]
    rfl

/-- A directive in a block is found exactly when no comment stands before its tag and no quote is open at its end.
Without comments it always is. -/
theorem found_iff {tag : String} {offset : Nat} {text : List Char} {d : Directive} (hopen : ['{', '%'] <+: text)
    (hclose : ['%', '}'] <:+ text) (hparse : Directive.parse tag offset text = .ok d) :
    (Found tag text ↔ TagFirst tag text ∧ OutsideQuotes text) ∧
      ((∀ c ∈ Lexer.pieces text, ¬ c.IsComment) → Found tag text) := by
  obtain ⟨r, rfl⟩ : ∃ r, text = '{' :: '%' :: r := by
    obtain ⟨r, hr⟩ := hopen
    exact ⟨r, hr.symm⟩
  obtain ⟨mid, sign, hd⟩ := exists_dissected hclose hparse
  have hr : inside ('{' :: '%' :: r) ++ ['%', '}'] = r := by
    rw [hd.inside]
    exact hd.text.symm
  have hwhole : EndsWhole (inside ('{' :: '%' :: r)) := by
    rw [hd.inside]
    exact hd.endsWhole
  have hfound := foundAmong_iff (List.mem_singleton_self tag) hwhole
  rw [hr, hd.firstWord_eq_iff] at hfound
  exact ⟨hfound, fun hcomments =>
    hfound.mpr ⟨tagFirst_of_no_comment hcomments, hd.outsideQuotes_of_no_comment hcomments⟩⟩

/-- `{%- render "@card" with {label: "50%}"} ~%}` -/
theorem found_card :
    let text := "\x7b%- render \"@card\" with \x7blabel: \"50%\x7d\"\x7d ~%\x7d".toList
    ['{', '%'] <+: text ∧ ['%', '}'] <:+ text ∧ (∃ d, Directive.parse "render" 0 text = .ok d) ∧ Found "render" text := by
  intro text
  let card : Sentence := {
    block := true
    component := .one (.literal (.string "@card"))
    missing := false
    vars := some (.one (.map (.one (.word (.ident "label")) (.one (.literal (.string "50%\x7d"))))))
    only := false }
  have hopen : ['{', '%'] <+: text := by decide +kernel
  have hclose : ['%', '}'] <:+ text := by decide +kernel
  have haccepted : Lexer.firstRejected 0 text = none := by decide +kernel
  have htokens : card.tokens "render" = Lexer.tokens text := by decide +kernel
  have hparse := Directive.parse_eq_ok_iff.mpr ⟨haccepted, card, htokens, rfl⟩
  exact ⟨hopen, hclose, ⟨_, hparse⟩, (found_iff hopen hclose hparse).2 (by decide +kernel)⟩

/-- `{% render "@card" {# it's #} %}` is a directive, but the quote in its comment makes the block run on. -/
theorem not_found_quote_in_comment :
    let text := "\x7b% render \"@card\" \x7b# it's #\x7d %\x7d".toList
    (∃ d, Directive.parse "render" 0 text = .ok d) ∧
      Template.blocks ["render"] (text ++ "tail".toList) = [⟨"render", text ++ "tail".toList, 0⟩] ∧
      ¬ Found "render" text := by
  intro text
  let card : Sentence := ⟨true, .one (.literal (.string "@card")), false, none, false⟩
  have haccepted : Lexer.firstRejected 0 text = none := by decide +kernel
  have htokens : card.tokens "render" = Lexer.tokens text := by decide +kernel
  have hparse := Directive.parse_eq_ok_iff.mpr ⟨haccepted, card, htokens, rfl⟩
  have hblocks : Template.blocks ["render"] (text ++ "tail".toList) = [⟨"render", text ++ "tail".toList, 0⟩] := by
    decide +kernel
  refine ⟨⟨_, hparse⟩, hblocks, fun hfound => ?_⟩
  have hfirst := hfound [] "tail".toList (by simp)
  rw [List.nil_append, hblocks, List.head?_cons, Option.some.injEq, Template.Block.mk.injEq] at hfirst
  exact absurd hfirst.2.1 (by decide +kernel)

end Inclusion
