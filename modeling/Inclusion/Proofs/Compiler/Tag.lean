import Inclusion.Proofs.Compiler.Template
import Inclusion.Proofs.Directive.Fault
import Inclusion.Proofs.Template.Agreement
import Inclusion.Proofs.Token.Written
/-!
# One directive under two tags

A tag stands at the beginning of a block and nowhere else, so a directive says the same under every tag: the pieces
after the tag are the same, and the derivation of one directive is one of the other. The lexer makes an identifier of
every word but the keywords. A keyword can be registered, the scan for blocks and the compiler find it, but the parser
waits for an identifier that never comes.
-/

namespace Inclusion

open Grammar
open Lexer (isWord wordToken keywords)
open Template (quoteAfter EndsWhole firstWord)

/-- The directive in a block with the tag and the text after it. -/
def blockText (tag body : String) : String :=
  "\x7b% " ++ tag ++ " " ++ body ++ " %\x7d"

/-- What stands between the tag and the closing of the block. -/
def bodyText (body : String) : List Char :=
  ' ' :: (body.toList ++ [' '])

variable {tag other body : String}

theorem toList_blockText (tag body : String) :
    (blockText tag body).toList = '{' :: '%' :: (' ' :: (tag.toList ++ bodyText body) ++ ['%', '}']) := by
  simp [blockText, bodyText]

theorem inside_blockText (tag body : String) :
    inside (blockText tag body).toList = ' ' :: (tag.toList ++ bodyText body) := by
  rw [toList_blockText, inside, List.drop_succ_cons, List.drop_succ_cons, List.drop_zero,
    List.dropLast_append_of_ne_nil (by simp)]
  exact List.dropLast_concat

theorem closed_blockText (tag body : String) : ['%', '}'] <:+ (blockText tag body).toList := by
  rw [toList_blockText]
  exact ⟨'{' :: '%' :: ' ' :: (tag.toList ++ bodyText body), rfl⟩

/-! ### The pieces of the block -/

theorem pieces_blockText (hword : isWord tag.toList = true) (body : String) :
    Lexer.pieces (blockText tag body).toList =
      ⟨.token .blockOpen, ['{', '%']⟩ :: ⟨.skipped, [' ']⟩ :: ⟨.token (wordToken tag.toList), tag.toList⟩ ::
        Lexer.pieces (bodyText body ++ ['%', '}']) := by
  rw [toList_blockText, pieces_opening]
  show _ :: Lexer.pieces (' ' :: (tag.toList ++ bodyText body) ++ ['%', '}']) = _
  rw [List.cons_append, List.append_assoc, Lexer.pieces_blank_word hword, Lexer.pieces_word hword (by simp [bodyText]; decide)]
  rfl

theorem tokens_blockText (hword : isWord tag.toList = true) (body : String) :
    Lexer.tokens (blockText tag body).toList =
      .blockOpen :: wordToken tag.toList :: Lexer.tokens (bodyText body ++ ['%', '}']) := by
  rw [Lexer.tokens_eq_filterMap, Lexer.tokens_eq_filterMap, pieces_blockText hword]
  rfl

/-- Whether something is rejected in the block is up to the text after the tag. -/
theorem firstRejected_blockText (hword : isWord tag.toList = true) (hother : isWord other.toList = true)
    (h : Lexer.firstRejected 0 (blockText tag body).toList = none) :
    Lexer.firstRejected 0 (blockText other body).toList = none := by
  refine Lexer.firstRejectedFrom_eq_none 0 ?_
  have hkinds := Lexer.kind_ne_rejected h
  rw [pieces_blockText hword] at hkinds
  rw [pieces_blockText hother]
  simp only [List.forall_mem_cons] at hkinds ⊢
  exact ⟨by simp, by simp, by simp, hkinds.2.2.2⟩

theorem no_comment_blockText_iff (hword : isWord tag.toList = true) :
    (∀ p ∈ Lexer.pieces (blockText tag body).toList, ¬ p.IsComment) ↔
      ∀ p ∈ Lexer.pieces (bodyText body ++ ['%', '}']), ¬ p.IsComment := by
  rw [pieces_blockText hword]
  simp [Piece.IsComment]

/-! ### The tag of the block -/

theorem firstWord_blockText (hword : isWord tag.toList = true) (body : String) :
    firstWord (blockText tag body).toList = some tag := by
  obtain ⟨c, cs, hcs, hc, hall⟩ := Lexer.exists_cons_of_isWord hword
  have htrim : trimStart (' ' :: (tag.toList ++ bodyText body) ++ ['%', '}']) =
      tag.toList ++ (bodyText body ++ ['%', '}']) := by
    rw [hcs]
    refine trimStart_eq ?_ (Lexer.isSpace_eq_false_of_isWordChar (Lexer.isWordChar_of_isNameStart hc))
    rw [List.cons_append, List.dropWhile_cons_of_pos (by decide), List.cons_append, List.cons_append, List.append_assoc]
    exact List.dropWhile_cons_of_neg (by simp [Lexer.isBlank_eq_false_of_isNameStart hc])
  have htake : (tag.toList ++ (bodyText body ++ ['%', '}'])).takeWhile isWordChar = tag.toList :=
    Lexer.takeWhile_append_stop hall (by simp [bodyText]; decide)
  have hsign : afterSign (' ' :: (tag.toList ++ bodyText body) ++ ['%', '}']) =
      ' ' :: (tag.toList ++ bodyText body) ++ ['%', '}'] := rfl
  rw [toList_blockText, firstWord_opening, hsign, htrim, htake, hcs]
  dsimp only
  rw [← hcs, String.ofList_toList]

theorem leadingTag_blockText (hword : isWord tag.toList = true) (body : String) :
    (leadingTag 0 (blockText tag body).toList).1 = tag := by
  have hfirst := firstWord_blockText hword body
  rw [toList_blockText] at hfirst ⊢
  exact leadingTag_of_firstWord hfirst 0

/-! ### The scan over the block -/

theorem endsWhole_inside_blockText (tag body : String) : EndsWhole (inside (blockText tag body).toList) := by
  have hblank : ' ' :: (tag.toList ++ bodyText body) = ' ' :: (tag.toList ++ ' ' :: body.toList) ++ [' '] := by
    simp [bodyText]
  rw [inside_blockText, hblank]
  exact Template.endsWhole_concat _ (by decide)

/-- The scan passes over the tag. -/
theorem quoteAfter_blockText (hword : isWord tag.toList = true) (body : String) :
    quoteAfter none (inside (blockText tag body).toList) = quoteAfter none (bodyText body) := by
  obtain ⟨c, cs, -, -, hall⟩ := Lexer.exists_cons_of_isWord hword
  have hplain : ∀ d ∈ ' ' :: tag.toList, d ≠ '"' ∧ d ≠ '\'' ∧ d ≠ '%' ∧ d ≠ '\\' :=
    List.forall_mem_cons.mpr ⟨by decide, fun d hd => Lexer.ne_of_isWordChar (hall d hd)⟩
  have hwhole : EndsWhole (' ' :: tag.toList) :=
    Template.endsWhole_plain fun d hd => ⟨(hplain d hd).2.2.1, (hplain d hd).2.2.2⟩
  rw [inside_blockText, ← List.cons_append, Template.quoteAfter_append hwhole,
    Template.quoteAfter_plain fun d hd => ⟨(hplain d hd).1, (hplain d hd).2.1, (hplain d hd).2.2.1⟩]
  rfl

theorem blockText_eq_inside (tag body : String) :
    '{' :: '%' :: (inside (blockText tag body).toList ++ ['%', '}']) = (blockText tag body).toList := by
  rw [inside_blockText, toList_blockText]

theorem blocks_blockText_iff {tags : List String} (hword : isWord tag.toList = true) (hmem : tag ∈ tags) (body : String) :
    Template.blocks tags (blockText tag body).toList = [⟨tag, (blockText tag body).toList, 0⟩] ↔
      ¬ ClosesEarly (blockText tag body).toList := by
  have hfirst := firstWord_blockText hword body
  rw [← blockText_eq_inside] at hfirst
  have h := blocks_eq_singleton_iff hmem (endsWhole_inside_blockText tag body) hfirst
  rw [blockText_eq_inside] at h
  exact h

theorem foundAmong_blockText_iff {tags : List String} (hword : isWord tag.toList = true) (hmem : tag ∈ tags) (body : String) :
    FoundAmong tags tag (blockText tag body).toList ↔ OutsideQuotes (blockText tag body).toList := by
  have h := foundAmong_iff hmem (endsWhole_inside_blockText tag body)
  rw [blockText_eq_inside, and_iff_right (firstWord_blockText hword body)] at h
  exact h

/-! ### The directive in the block -/

/-- The directives say the same, whatever their tags and their places are. -/
structure Directive.SaysAs (d d' : Directive) : Prop where
  component : d'.component.value = d.component.value
  vars : d'.vars.map Located.value = d.vars.map Located.value
  only : d'.only = d.only
  ignoreMissing : d'.ignoreMissing = d.ignoreMissing

theorem Grammar.Sentence.block_of_tokens {s : Sentence} {t : Token} {ts : List Token}
    (h : s.tokens tag = .blockOpen :: t :: ts) : s.block = true := by
  cases hblock : s.block with
  | true => rfl
  | false =>
    rw [Sentence.tokens, Sentence.openTokens, hblock] at h
    cases h

/-- A sentence in a block is the same for every tag but for the tag. -/
theorem Grammar.Sentence.tokens_of_block {s : Sentence} (hblock : s.block = true) {ts : List Token}
    (h : s.tokens tag = .blockOpen :: .ident tag :: ts) (other : String) :
    s.tokens other = .blockOpen :: .ident other :: ts := by
  rw [Sentence.tokens, Sentence.openTokens, hblock] at h ⊢
  simp only [Sentence.head, if_true, List.cons_append, List.nil_append, List.cons.injEq, true_and] at h ⊢
  exact h

theorem saysAs_ofOutline (tag other : String) (lexemes lexemes' : List Lexeme) (s : Sentence) :
    (Directive.ofOutline tag lexemes (s.outline tag)).SaysAs (Directive.ofOutline other lexemes' (s.outline other)) where
  component := rfl
  vars := by cases hvars : s.vars <;> simp [Directive.ofOutline, Sentence.outline, hvars]
  only := rfl
  ignoreMissing := rfl

theorem parse_blockText (hword : isWord tag.toList = true) (hother : isWord other.toList = true) (hident : tag ∉ keywords)
    (hotherident : other ∉ keywords) {d : Directive} (h : Directive.parse tag 0 (blockText tag body).toList = .ok d) :
    ∃ d', Directive.parse other 0 (blockText other body).toList = .ok d' ∧ d.SaysAs d' := by
  obtain ⟨haccepted, s, hs, rfl⟩ := Directive.parse_eq_ok_iff.mp h
  rw [tokens_blockText hword, Lexer.wordToken_eq_ident_iff.mpr hident] at hs
  have htokens := Sentence.tokens_of_block (Sentence.block_of_tokens hs) hs other
  rw [← Lexer.wordToken_eq_ident_iff.mpr hotherident, ← tokens_blockText hother] at htokens
  have haccepted' := firstRejected_blockText hword hother haccepted
  exact ⟨_, Directive.parse_eq_ok_iff.mpr ⟨haccepted', s, htokens, rfl⟩, saysAs_ofOutline tag other _ _ s⟩

/-- A keyword is no tag to the parser. -/
theorem parse_blockText_of_keyword (hword : isWord tag.toList = true) (hkeyword : tag ∈ keywords)
    (haccepted : Lexer.firstRejected 0 (blockText tag body).toList = none) :
    Directive.parse tag 0 (blockText tag body).toList =
      .error ⟨.unexpected (some (wordToken tag.toList)) [.token (.ident tag)], ⟨3, 3 + byteLength tag.toList⟩⟩ := by
  have hne : wordToken tag.toList ≠ .ident tag := fun h => Lexer.wordToken_eq_ident_iff.mp h hkeyword
  obtain ⟨rest, hlexemes⟩ : ∃ rest, Lexer.lexemes 0 (blockText tag body).toList =
      ⟨.blockOpen, ⟨0, 2⟩⟩ :: ⟨wordToken tag.toList, ⟨3, 3 + byteLength tag.toList⟩⟩ :: rest := by
    rw [Lexer.lexemes, pieces_blockText hword]
    exact ⟨_, rfl⟩
  have hstop (ts : List Token) : Directive.ofTokens tag (.blockOpen :: wordToken tag.toList :: ts) =
      .error ⟨1, [.token (.ident tag)]⟩ := by
    simp only [Directive.ofTokens, TokenReader.read, TokenReader.readFrom, Directive.reader, Directive.Phase.step, if_true,
      if_neg hne]
    rfl
  rw [Directive.parse, Directive.scan_eq_ok haccepted hlexemes]
  dsimp only
  rw [List.map_cons, List.map_cons, hstop]
  rfl

/-- The place of a directive in a block that is closed at its end is the whole text. -/
theorem span_of_parse_closed {r : List Char} {d : Directive} (hclose : ['%', '}'] <:+ '{' :: '%' :: r)
    (h : Directive.parse tag 0 ('{' :: '%' :: r) = .ok d) : d.span = ⟨0, byteLength ('{' :: '%' :: r)⟩ := by
  obtain ⟨haccepted, s, -, rfl⟩ := Directive.parse_eq_ok_iff.mp h
  have hend := (endOfTokens_eq_iff (Lexer.kind_ne_rejected haccepted) 0).mpr (.inr (kind_ne_skipped_of_closed hclose))
  show Directive.spanOf (Lexer.lexemes 0 _) 0 (Lexer.lexemes 0 _).length = _
  obtain ⟨l, rest, hlexemes, hstart⟩ : ∃ l rest, Lexer.lexemes 0 ('{' :: '%' :: r) = l :: rest ∧ l.span.start = 0 := by
    rw [Lexer.lexemes, pieces_opening]
    exact ⟨_, _, rfl, rfl⟩
  rw [endOfTokens, hlexemes, List.getLast?_eq_getElem?] at hend
  obtain ⟨last, hlast⟩ : ∃ last, (l :: rest)[(l :: rest).length - 1]? = some last :=
    ⟨_, List.getElem?_eq_getElem (by simp)⟩
  rw [hlast, Option.map_some, Option.getD_some, Nat.zero_add] at hend
  rw [hlexemes, Directive.spanOf, hlast, Option.map_some, Option.getD_some, hend]
  simp [hstart]

theorem span_of_parse_blockText {d : Directive} (h : Directive.parse tag 0 (blockText tag body).toList = .ok d) :
    d.span = ⟨0, byteLength (blockText tag body).toList⟩ := by
  have hclose := closed_blockText tag body
  rw [toList_blockText] at h hclose ⊢
  exact span_of_parse_closed hclose h

/-- Without comments, no quote is open at the end of the block, under whatever tag the directive is read. -/
theorem outsideQuotes_blockText (hword : isWord tag.toList = true) (hother : isWord other.toList = true) {d : Directive}
    (h : Directive.parse tag 0 (blockText tag body).toList = .ok d)
    (hcomments : ∀ p ∈ Lexer.pieces (blockText other body).toList, ¬ p.IsComment) :
    OutsideQuotes (blockText other body).toList := by
  have hclose := closed_blockText tag body
  rw [no_comment_blockText_iff hother, ← no_comment_blockText_iff hword] at hcomments
  rw [OutsideQuotes, quoteAfter_blockText hother, ← quoteAfter_blockText hword]
  rw [toList_blockText] at h hclose hcomments ⊢
  obtain ⟨mid, sign, hd⟩ := exists_dissected hclose h
  exact hd.outsideQuotes_of_no_comment hcomments

/-! ### Compiling the block -/

namespace Directive.SaysAs

variable {d d' : Directive}

theorem skipsContext (h : d.SaysAs d') : d'.skipsContext = d.skipsContext := by
  have hvars := congrArg Option.isNone h.vars
  rw [Option.isNone_map, Option.isNone_map] at hvars
  rw [Directive.skipsContext, Directive.skipsContext, h.only, hvars]

theorem reference (h : d.SaysAs d') {r : Reference} (hreference : d.reference = .ok r) : d'.reference = .ok r := by
  unfold Directive.reference at hreference ⊢
  rw [h.component]
  split at hreference
  · cases hreference
  · split at hreference
    · cases hreference
    · exact hreference

theorem call (h : d.SaysAs d') (r : Resolution) : r.call d' = { r.call d with span := d'.span } := by
  rw [Resolution.call, h.vars, h.only, h.ignoreMissing]
  rfl

end Directive.SaysAs

namespace Compiler

variable {disk : Disk} {c c' : Compiler} {call : IncludeCall}

theorem resolve_of_saysAs {d d' : Directive} (h : d.SaysAs d') {r : Resolution}
    (hresolve : c.resolve disk d = (.ok r, c')) : c.resolve disk d' = (.ok r, c') := by
  obtain ⟨hreference, hcomponent⟩ := resolve_eq_ok_iff.mp hresolve
  rw [← h.skipsContext] at hcomponent
  exact resolve_eq_ok_iff.mpr ⟨h.reference hreference, hcomponent⟩

/-- A directive in a block compiles under every tag but the keywords when it compiles under one. -/
theorem compileDirective_blockText (hword : isWord tag.toList = true) (hother : isWord other.toList = true)
    (hident : tag ∉ keywords) (hotherident : other ∉ keywords) (hmem : other ∈ c.tags)
    (h : c.compileDirective disk (blockText tag body) = (.ok call, c')) :
    c.compileDirective disk (blockText other body) =
      (.ok { call with span := ⟨0, byteLength (blockText other body).toList⟩ }, c') := by
  obtain ⟨-, d, r, hparse, hresolve, rfl⟩ := compileAt_eq_ok_iff.mp h
  rw [leadingTag_blockText hword] at hparse
  obtain ⟨d', hparse', hsays⟩ := parse_blockText hword hother hident hotherident hparse
  rw [← span_of_parse_blockText hparse', ← hsays.call r]
  refine compileAt_eq_ok_iff.mpr ⟨?_, d', r, ?_, resolve_of_saysAs hsays hresolve, rfl⟩
  · rwa [leadingTag_blockText hother]
  · rwa [leadingTag_blockText hother]

theorem compileDirective_blockText_of_keyword (hword : isWord tag.toList = true) (hkeyword : tag ∈ keywords)
    (hmem : tag ∈ c.tags) (haccepted : Lexer.firstRejected 0 (blockText tag body).toList = none) (disk : Disk) :
    c.compileDirective disk (blockText tag body) = (.error (.malformed
      [⟨.unexpected (some (wordToken tag.toList)) [.token (.ident tag)], ⟨3, 3 + byteLength tag.toList⟩⟩]), c) := by
  rw [compileDirective, compileAt]
  dsimp only
  rw [leadingTag_blockText hword, if_pos (List.contains_iff_mem.mpr hmem), parse_blockText_of_keyword hword hkeyword haccepted]

/-- What compiles in a block under the tag that every compiler knows compiles under every registered word but a keyword,
with the same answer but for the length of the place, and the compiler is the same afterwards. A keyword is reported at
its place instead. The block is found with its tag for every word. On its own it is found whole unless the scan comes to
an end early, in a comment, and in every template if no quote is open at its end; without comments that is always so. -/
theorem compileDirective_of_render (hword : isWord tag.toList = true) (hmem : tag ∈ c.tags)
    (hrender : c.compileDirective disk (blockText renderTag body) = (.ok call, c')) :
    let source := blockText tag body
    call.span = ⟨0, byteLength (blockText renderTag body).toList⟩ ∧
      (tag ∉ keywords → c.compileDirective disk source = (.ok { call with span := ⟨0, byteLength source.toList⟩ }, c')) ∧
      (tag ∈ keywords → c.compileDirective disk source = (.error (.malformed
        [⟨.unexpected (some (wordToken tag.toList)) [.token (.ident tag)], ⟨3, 3 + byteLength tag.toList⟩⟩]), c)) ∧
      (Template.blocks c.tags source.toList = [⟨tag, source.toList, 0⟩] ↔ ¬ ClosesEarly source.toList) ∧
      (FoundAmong c.tags tag source.toList ↔ OutsideQuotes source.toList) ∧
      ((∀ p ∈ Lexer.pieces source.toList, ¬ p.IsComment) → OutsideQuotes source.toList) := by
  intro source
  have hrenderWord : isWord renderTag.toList = true := by decide
  have hrenderIdent : renderTag ∉ keywords := by decide
  obtain ⟨-, d, r, hparse, -, hcall⟩ := compileAt_eq_ok_iff.mp hrender
  rw [leadingTag_blockText hrenderWord] at hparse
  have haccepted := firstRejected_blockText hrenderWord hword (Directive.parse_eq_ok_iff.mp hparse).1
  refine ⟨?_, fun hident => ?_, fun hkeyword => ?_, blocks_blockText_iff hword hmem body,
    foundAmong_blockText_iff hword hmem body, outsideQuotes_blockText hrenderWord hword hparse⟩
  · rw [hcall]
    exact span_of_parse_blockText hparse
  · exact compileDirective_blockText hrenderWord hword hrenderIdent hident hmem hrender
  · exact compileDirective_blockText_of_keyword hword hkeyword hmem haccepted disk

/-- `{% render "@card" only %}`, with whatever other tags. -/
theorem compileDirective_card (disk : Disk) {tags : List String} (hmem : renderTag ∈ tags) :
    let catalog := Catalog.ofComponents [⟨"card", "@a/card.twig", ⟨"card.yml"⟩⟩]
    let c : Compiler := ⟨catalog, .new false, tags⟩
    c.compileDirective disk (blockText renderTag "\"@card\" only") =
      (.ok ⟨"@a/card.twig", .emptyMap, true, false, ⟨0, 25⟩⟩, c) := by
  intro catalog c
  let d : Directive := ⟨"render", ⟨.literal (.string "@card"), ⟨10, 17⟩⟩, none, true, false, ⟨0, 25⟩⟩
  have htag : (leadingTag 0 (blockText renderTag "\"@card\" only").toList).1 = renderTag :=
    leadingTag_blockText (by decide) _
  have hlexemes : Lexer.lexemes 0 (blockText renderTag "\"@card\" only").toList =
      [⟨.blockOpen, ⟨0, 2⟩⟩, ⟨.ident "render", ⟨3, 9⟩⟩, ⟨.string "@card", ⟨10, 17⟩⟩, ⟨.clause .only, ⟨18, 22⟩⟩,
        ⟨.blockClose, ⟨23, 25⟩⟩] := by decide +kernel
  have hparse : Directive.parse renderTag 0 (blockText renderTag "\"@card\" only").toList = .ok d := by
    rw [Directive.parse, Directive.scan_eq_ok (by decide +kernel) hlexemes]
    rfl
  have hresolve : c.resolve disk d = (.ok ⟨⟨"card", none⟩, ⟨"card", "@a/card.twig", ⟨"card.yml"⟩⟩, none⟩, c) := rfl
  exact compileAt_eq_ok_iff.mpr ⟨htag ▸ hmem, d, _, htag ▸ hparse, hresolve, rfl⟩

/-- `{% aside "@card" only %}` compiles when `aside` is registered. -/
theorem compileDirective_of_render_aside :
    let disk : Disk := ⟨.directory [], []⟩
    let c : Compiler := ⟨.ofComponents [⟨"card", "@a/card.twig", ⟨"card.yml"⟩⟩], .new false, ["aside", "render"]⟩
    isWord "aside".toList = true ∧ "aside" ∈ c.tags ∧
      c.compileDirective disk (blockText renderTag "\"@card\" only") =
        (.ok ⟨"@a/card.twig", .emptyMap, true, false, ⟨0, 25⟩⟩, c) ∧
      c.compileDirective disk (blockText "aside" "\"@card\" only") =
        (.ok ⟨"@a/card.twig", .emptyMap, true, false, ⟨0, 24⟩⟩, c) ∧
      FoundAmong c.tags "aside" (blockText "aside" "\"@card\" only").toList := by
  intro disk c
  have hword : isWord "aside".toList = true := by decide
  have hmem : "aside" ∈ c.tags := by decide
  have hrender := compileDirective_card disk (show renderTag ∈ c.tags by decide)
  obtain ⟨-, hcompile, -, -, hfound, hquotes⟩ := compileDirective_of_render hword hmem hrender
  exact ⟨hword, hmem, hrender, hcompile (by decide), hfound.mpr (hquotes (by decide +kernel))⟩

/-- `{% with "@card" only %}` does not compile, although `with` is registered. -/
theorem compileDirective_with :
    let disk : Disk := ⟨.directory [], []⟩
    let c : Compiler := ⟨.ofComponents [⟨"card", "@a/card.twig", ⟨"card.yml"⟩⟩], .new false, ["render", "with"]⟩
    isWord "with".toList = true ∧ "with" ∈ c.tags ∧
      c.compileDirective disk (blockText renderTag "\"@card\" only") =
        (.ok ⟨"@a/card.twig", .emptyMap, true, false, ⟨0, 25⟩⟩, c) ∧
      c.compileDirective disk (blockText "with" "\"@card\" only") = (.error (.malformed
        [⟨.unexpected (some (.clause .with_)) [.token (.ident "with")], ⟨3, 7⟩⟩]), c) := by
  intro disk c
  have hword : isWord "with".toList = true := by decide
  have hmem : "with" ∈ c.tags := by decide
  have hrender := compileDirective_card disk (show renderTag ∈ c.tags by decide)
  exact ⟨hword, hmem, hrender, compileDirective_blockText_of_keyword hword (by decide) hmem (by decide +kernel) disk⟩

end Compiler

end Inclusion
