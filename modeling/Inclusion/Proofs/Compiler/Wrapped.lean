import Inclusion.Proofs.Compiler.Run
import Inclusion.Proofs.Compiler.Tag
import Inclusion.Proofs.Token.Append
/-!
# A directive with and without its block

A directive can stand on its own or in a block, and the block can have a minus or a tilde at its opening and at its
closing. None of that changes what the directive says: with a blank on either side, the tokens in the block are those
of the text on its own, and the opening and the closing are one token each. A text whose first token is an opening is a
block already, which does not go into another one.
-/

namespace Inclusion

open Grammar
open Lexer (ClosesNothing)

/-- What can stand at the opening and at the closing of a block. -/
inductive Mark
  | none
  | minus
  | tilde
  deriving DecidableEq, Repr

def Mark.text : Mark → List Char
  | none => []
  | minus => ['-']
  | tilde => ['~']

/-- The text in a block, with a blank on either side. -/
def wrap (opening closing : Mark) (body : String) : String :=
  "\x7b%" ++ String.ofList opening.text ++ " " ++ body ++ " " ++ String.ofList closing.text ++ "%\x7d"

/-- The bytes before the text in a block. -/
def Mark.before (opening : Mark) : Nat :=
  opening.text.length + 3

variable {opening closing : Mark} {body tag : String}

theorem toList_wrap (opening closing : Mark) (body : String) : (wrap opening closing body).toList =
    '{' :: '%' :: (opening.text ++ ' ' :: (body.toList ++ ' ' :: (closing.text ++ ['%', '}']))) := by
  simp [wrap]

/-! ### The tokens in the block -/

theorem closesNothing_closing (closing : Mark) : ClosesNothing (closing.text ++ ['%', '}']) := by
  cases closing <;> exact ⟨by decide, by decide, by decide⟩

theorem toOption_scan_closing (start : Nat) (closing : Mark) :
    (Directive.scan start (closing.text ++ ['%', '}'])).toOption =
      some [⟨.blockClose, ⟨start, start + byteLength (closing.text ++ ['%', '}'])⟩⟩] := by
  obtain ⟨c, cs, hcs, hmunch⟩ : ∃ c cs, closing.text ++ ['%', '}'] = c :: (cs ++ []) ∧
      Lexer.munch c (cs ++ []) = (.token .blockClose, cs.length) := by
    cases closing
    · exact ⟨_, ['}'], rfl, rfl⟩
    · exact ⟨_, ['%', '}'], rfl, rfl⟩
    · exact ⟨_, ['%', '}'], rfl, rfl⟩
  rw [hcs, Directive.toOption_scan_token hmunch, Directive.toOption_scan_nil, List.append_nil]
  rfl

theorem toOption_scan_opening (opening : Mark) (rest : List Char) :
    (Directive.scan 0 ('{' :: '%' :: (opening.text ++ ' ' :: rest))).toOption =
      (Directive.scan opening.before rest).toOption.map (⟨.blockOpen, ⟨0, opening.text.length + 2⟩⟩ :: ·) := by
  have hmunch : Lexer.munch '{' (('%' :: opening.text) ++ ' ' :: rest) =
      (.token .blockOpen, ('%' :: opening.text).length) := by
    cases opening <;> rfl
  have hbytes : 0 + byteLength ('{' :: '%' :: opening.text) = opening.text.length + 2 := by
    cases opening <;> rfl
  have hblank := Directive.toOption_scan_blank (show isBlank ' ' = true by decide) (opening.text.length + 2) rest
  have hscan := Directive.toOption_scan_token hmunch 0
  rw [hbytes, hblank] at hscan
  exact hscan

theorem toOption_scan_wrap (opening closing : Mark) (body : String) :
    (Directive.scan 0 (wrap opening closing body).toList).toOption =
      (Directive.scan opening.before body.toList).toOption.map fun ls =>
        ⟨.blockOpen, ⟨0, opening.text.length + 2⟩⟩ :: (ls ++ [⟨.blockClose,
          ⟨opening.before + byteLength body.toList + 1, byteLength (wrap opening closing body).toList⟩⟩]) := by
  have hbytes : opening.before + byteLength body.toList + 1 + byteLength (closing.text ++ ['%', '}']) =
      byteLength (wrap opening closing body).toList := by
    have hopening : byteLength opening.text = opening.text.length := by cases opening <;> rfl
    have hutf8 : ' '.utf8Size = 1 ∧ '{'.utf8Size = 1 ∧ '%'.utf8Size = 1 := by decide
    simp only [toList_wrap, Mark.before, byteLength_cons, byteLength_append, hopening, hutf8]
    omega
  rw [toList_wrap, toOption_scan_opening, Directive.toOption_scan_append (closesNothing_closing closing),
    toOption_scan_closing, hbytes, ← toList_wrap]
  cases (Directive.scan opening.before body.toList).toOption <;> rfl

/-! ### The directive in the block -/

namespace Grammar.Sentence

theorem tokens_inBlock {s : Sentence} (h : s.block = false) (tag : String) :
    ({ s with block := true } : Sentence).tokens tag = .blockOpen :: (s.tokens tag ++ [.blockClose]) := by
  simp [tokens, openTokens, head, closeTokens, h]

theorem block_eq_false {s : Sentence} {ts : List Token} (hfirst : ts.head? ≠ some .blockOpen) (h : s.tokens tag = ts) :
    s.block = false := by
  cases hblock : s.block with
  | false => rfl
  | true =>
    subst h
    simp [tokens, openTokens, head, hblock] at hfirst

theorem exists_of_tokens_inBlock {s : Sentence} {ts : List Token} (h : s.tokens tag = .blockOpen :: (ts ++ [.blockClose])) :
    ∃ s' : Sentence, s'.block = false ∧ s'.tokens tag = ts ∧ s = { s' with block := true } := by
  have hblock : s.block = true := by
    cases hts : ts ++ [.blockClose] with
    | nil => simp at hts
    | cons t rest => exact block_of_tokens (hts ▸ h)
  obtain ⟨block, component, missing, vars, only⟩ := s
  cases hblock
  have hbare := tokens_inBlock (s := ⟨false, component, missing, vars, only⟩) rfl tag
  exact ⟨_, rfl, List.append_cancel_right (List.cons.inj (hbare.symm.trans h)).2, rfl⟩

end Grammar.Sentence

namespace Directive

theorem toOption_parse (tag : String) (offset : Nat) (cs : List Char) : (parse tag offset cs).toOption =
    (scan offset cs).toOption.bind fun ls =>
      (ofTokens tag (ls.map Lexeme.token)).toOption.map (ofOutline tag ls) := by
  rw [parse]
  cases scan offset cs with
  | error f => rfl
  | ok ls =>
    dsimp only [Except.toOption, Option.bind_some]
    cases ofTokens tag (ls.map Lexeme.token) <;> rfl

theorem spanOf_inBlock {ls : List Lexeme} {first n : Nat} (hn : 0 < n) (hlength : first + n ≤ ls.length)
    (front back : Lexeme) : spanOf (front :: (ls ++ [back])) (first + 1) (first + 1 + n) = spanOf ls first (first + n) := by
  obtain ⟨n, rfl⟩ := Nat.exists_eq_succ_of_ne_zero (Nat.ne_of_gt hn)
  have hlast : first + 1 + n = first + n + 1 := Nat.add_right_comm first 1 n
  have hfirst : first < ls.length := by omega
  have hnext : first + n < ls.length := by omega
  simp [spanOf, List.getElem?_append_left, hfirst, hnext, hlast]

theorem ofOutline_inBlock {s : Sentence} {ls : List Lexeme} (hblock : s.block = false)
    (h : s.tokens tag = ls.map Lexeme.token) (front back : Lexeme) :
    ofOutline tag (front :: (ls ++ [back])) (({ s with block := true } : Sentence).outline tag) =
      { ofOutline tag ls (s.outline tag) with span := ⟨front.span.start, back.span.stop⟩ } := by
  have hlength := congrArg List.length h
  obtain ⟨block, component, missing, vars, only⟩ := s
  have hcomponent := component.length_tokens_pos
  cases hblock
  simp only [List.length_map, Sentence.tokens, Sentence.openTokens, Sentence.head, Bool.false_eq_true, if_false,
    List.length_append, List.length_singleton] at hlength
  unfold ofOutline Sentence.outline
  congr 1
  · have hend : 1 + component.tokens.length ≤ ls.length := by omega
    exact congrArg (Located.mk component.expr) (spanOf_inBlock hcomponent hend front back)
  · cases vars with
    | none => rfl
    | some c =>
      rw [Sentence.varsTokens, List.length_cons] at hlength
      have hend : ([Token.ident tag] ++ component.tokens ++ Sentence.missingTokens missing).length + 1 + c.tokens.length ≤
          ls.length := by
        simp only [List.length_append, List.length_singleton]
        omega
      exact congrArg (fun place => some (Located.mk c.expr place)) (spanOf_inBlock c.length_tokens_pos hend front back)
  · simp [spanOf]

/-- Tokens between an opening and a closing are a directive if they are one without them. -/
theorem toOption_ofTokens_inBlock {ls : List Lexeme} (hfirst : (ls.map Lexeme.token).head? ≠ some .blockOpen)
    {front back : Lexeme} (hfront : front.token = .blockOpen) (hback : back.token = .blockClose) :
    (ofTokens tag ((front :: (ls ++ [back])).map Lexeme.token)).toOption.map (ofOutline tag (front :: (ls ++ [back]))) =
      ((ofTokens tag (ls.map Lexeme.token)).toOption.map (ofOutline tag ls)).map fun d =>
        { d with span := ⟨front.span.start, back.span.stop⟩ } := by
  have htokens : (front :: (ls ++ [back])).map Lexeme.token = .blockOpen :: (ls.map Lexeme.token ++ [.blockClose]) := by
    rw [List.map_cons, List.map_append, hfront, List.map_singleton, hback]
  rw [htokens]
  cases hbare : ofTokens tag (ls.map Lexeme.token) with
  | ok o =>
    obtain ⟨s, hs, rfl⟩ := ofTokens_eq_ok_iff.mp hbare
    have hblock := Sentence.block_eq_false hfirst hs
    have hinner := Sentence.tokens_inBlock hblock tag
    rw [hs] at hinner
    rw [ofTokens_eq_ok_iff.mpr ⟨_, hinner, rfl⟩]
    exact congrArg some (ofOutline_inBlock hblock hs front back)
  | error stop =>
    cases hinner : ofTokens tag (.blockOpen :: (ls.map Lexeme.token ++ [.blockClose])) with
    | error stop' => rfl
    | ok o =>
      obtain ⟨s, hs, -⟩ := ofTokens_eq_ok_iff.mp hinner
      obtain ⟨s', -, hs', -⟩ := Sentence.exists_of_tokens_inBlock hs
      cases hbare.symm.trans (ofTokens_eq_ok_iff.mpr ⟨s', hs', rfl⟩)

end Directive

/-- The first token of a text, if nothing in it is rejected, is not the opening of a block. -/
def Unopened (body : String) : Prop :=
  Lexer.firstRejected 0 body.toList = none → (Lexer.tokens body.toList).head? ≠ some .blockOpen

theorem Unopened.head?_ne (h : Unopened body) {n : Nat} {ls : List Lexeme}
    (hscan : (Directive.scan n body.toList).toOption = some ls) : (ls.map Lexeme.token).head? ≠ some .blockOpen := by
  rw [Directive.scan, Lexer.firstRejected_eq_map n] at hscan
  cases hrejected : Lexer.firstRejected 0 body.toList with
  | some r =>
    rw [hrejected] at hscan
    cases hscan
  | none =>
    rw [hrejected] at hscan
    cases hscan
    rw [Lexer.map_token_lexemes]
    exact h hrejected

/-- The directive in a block is the one without it, at its place in the block. -/
theorem toOption_parse_wrap (h : Unopened body) (opening closing : Mark) (tag : String) :
    (Directive.parse tag 0 (wrap opening closing body).toList).toOption =
      (Directive.parse tag 0 body.toList).toOption.map fun d =>
        { d.shift opening.before with span := ⟨0, byteLength (wrap opening closing body).toList⟩ } := by
  have hshift : (Directive.parse tag opening.before body.toList).toOption =
      (Directive.parse tag 0 body.toList).toOption.map fun d => d.shift opening.before := by
    rw [Directive.parse_eq_shift]
    cases Directive.parse tag 0 body.toList <;> rfl
  have hwrap : (Directive.parse tag 0 (wrap opening closing body).toList).toOption =
      (Directive.parse tag opening.before body.toList).toOption.map fun d =>
        { d with span := ⟨0, byteLength (wrap opening closing body).toList⟩ } := by
    rw [Directive.toOption_parse, Directive.toOption_parse, toOption_scan_wrap]
    cases hscan : (Directive.scan opening.before body.toList).toOption with
    | none => rfl
    | some ls => exact Directive.toOption_ofTokens_inBlock (h.head?_ne hscan) rfl rfl
  rw [hwrap, hshift, Option.map_map]
  rfl

/-! ### The tag of the block -/

theorem munch_of_isSpace {c : Char} (hspace : isSpace c = true) (hblank : isBlank c = false) (rest : List Char) :
    (Lexer.munch c rest).1 = .rejected := by
  have hword : isWordChar c ≠ true := by
    intro hword
    rw [Lexer.isSpace_eq_false_of_isWordChar hword] at hspace
    cases hspace
  have hname : Lexer.isNameStart c = false :=
    Bool.eq_false_iff.mpr fun hname => hword (Lexer.isWordChar_of_isNameStart hname)
  have hdigit : c.isDigit = false := Bool.eq_false_iff.mpr fun hdigit => hword (Lexer.isWordChar_of_isDigit hdigit)
  unfold Lexer.munch
  rw [if_neg (by simp [hblank]), if_neg (by simp [hname]), if_neg (by simp [hdigit])]
  split
  case h_15 => rfl
  all_goals exact absurd hspace (by decide)

/-- At the front of a text without anything rejected, only blanks are trimmed. -/
theorem trimStart_of_accepted {cs : List Char} (h : Lexer.firstRejected 0 cs = none) :
    trimStart cs = cs.dropWhile isBlank := by
  have htrim : trimStart cs = (cs.dropWhile isBlank).dropWhile isSpace := by
    unfold trimStart
    conv => lhs; rw [← List.takeWhile_append_dropWhile (p := isBlank) (l := cs)]
    exact List.dropWhile_append_of_pos fun d hd => isSpace_of_isBlank (List.mem_takeWhile_imp hd)
  rw [htrim]
  cases hrest : cs.dropWhile isBlank with
  | nil => rfl
  | cons c rest =>
    refine List.dropWhile_cons_of_neg fun hspace => ?_
    have hblank : isBlank c = false := by
      have hhead := List.head?_dropWhile_not isBlank cs
      rw [hrest] at hhead
      exact hhead
    obtain ⟨blanks, -, hpieces⟩ := Lexer.exists_blanks cs
    rw [hrest, Lexer.pieces_cons] at hpieces
    have hkinds := Lexer.kind_ne_rejected h
    rw [hpieces, List.forall_mem_append, List.forall_mem_cons] at hkinds
    exact hkinds.2.1 (munch_of_isSpace hspace hblank rest)

/-- The text does not begin with the opening of a block. -/
theorem Unopened.trimStart_ne (h : Unopened body) (haccepted : Lexer.firstRejected 0 body.toList = none) (r : List Char) :
    trimStart body.toList ≠ '{' :: '%' :: r := by
  intro heq
  apply h haccepted
  rw [trimStart_of_accepted haccepted] at heq
  obtain ⟨blanks, hblanks, hpieces⟩ := Lexer.exists_blanks body.toList
  have hnone : blanks.filterMap Piece.token? = [] := by
    refine List.filterMap_eq_nil_iff.mpr fun p hp => ?_
    rw [Piece.token?, (hblanks p hp).1]
  rw [Lexer.tokens_eq_filterMap, hpieces, heq, pieces_opening, List.filterMap_append, hnone]
  rfl

theorem leadingTag_of_trimStart_ne {cs : List Char} (h : ∀ r, trimStart cs ≠ '{' :: '%' :: r) :
    (leadingTag 0 cs).1 = String.ofList ((trimStart cs).takeWhile isWordChar) := by
  unfold leadingTag
  dsimp only
  split
  · next heq => exact absurd heq (h _)
  · next heq => exact absurd heq (h _)
  · next heq => exact absurd heq (h _)
  · rfl

theorem takeWhile_trimStart_append (cs : List Char) (closing : Mark) :
    (trimStart (cs ++ ' ' :: (closing.text ++ ['%', '}']))).takeWhile isWordChar = (trimStart cs).takeWhile isWordChar := by
  rw [trimStart, trimStart, List.dropWhile_append]
  split
  · next hempty =>
    rw [List.isEmpty_iff.mp hempty]
    cases closing <;> rfl
  · exact Lexer.takeWhile_append_blank (by decide) _ _

theorem leadingTag_wrap (h : Unopened body) (haccepted : Lexer.firstRejected 0 body.toList = none) (opening closing : Mark) :
    (leadingTag 0 (wrap opening closing body).toList).1 = (leadingTag 0 body.toList).1 := by
  have hsign (rest : List Char) : afterSign (opening.text ++ ' ' :: rest) = ' ' :: rest := by
    cases opening <;> rfl
  have hblank (rest : List Char) : trimStart (' ' :: rest) = trimStart rest := List.dropWhile_cons_of_pos (by decide)
  rw [toList_wrap, leadingTag_opening, hsign, hblank, takeWhile_trimStart_append,
    leadingTag_of_trimStart_ne (h.trimStart_ne haccepted)]

/-! ### Compiling the directive in the block -/

/-- The errors are the same but for what is wrong with the text and for their places. -/
inductive CompileError.Alike : CompileError → CompileError → Prop
  | malformed {e e' : CompileError} (h : e.kind = .malformedDirective) (h' : e'.kind = .malformedDirective) : Alike e e'
  | catalog (e : CatalogError) (span span' : Option Span) : Alike (.catalog e span) (.catalog e span')
  | config (e : ConfigError) (span span' : Option Span) : Alike (.config e span) (.config e span')

/-- The answers are the same, with an error for an error that is like it and with a value for the value that it becomes. -/
inductive AnswersAlike {α : Type} (becomes : α → α) : Except CompileError α → Except CompileError α → Prop
  | ok (a : α) : AnswersAlike becomes (.ok a) (.ok (becomes a))
  | error {e e' : CompileError} (h : e.Alike e') : AnswersAlike becomes (.error e) (.error e')

theorem AnswersAlike.map {α β : Type} {a b : Except CompileError α} (h : AnswersAlike id a b) {f g : α → β}
    {becomes : β → β} (hfg : ∀ r, g r = becomes (f r)) : AnswersAlike becomes (a.map f) (b.map g) := by
  cases h with
  | ok r =>
    rw [Except.map, Except.map, id, hfg]
    exact .ok (f r)
  | error h => exact .error h

namespace Compiler

theorem reference_alike {d d' : Directive} (h : d.SaysAs d') :
    d'.reference = d.reference ∨ ∃ f f', d.reference = .error f ∧ d'.reference = .error f' := by
  unfold Directive.reference
  rw [h.component]
  split
  · exact .inr ⟨_, _, rfl, rfl⟩
  · split
    · exact .inr ⟨_, _, rfl, rfl⟩
    · exact .inl rfl

theorem resolve_alike {d d' : Directive} (h : d.SaysAs d') (disk : Disk) (c : Compiler) :
    AnswersAlike id (c.resolve disk d).1 (c.resolve disk d').1 ∧ (c.resolve disk d').2 = (c.resolve disk d).2 := by
  rw [resolve_eq, resolve_eq, h.skipsContext]
  rcases reference_alike h with href | ⟨f, f', href, href'⟩
  · rw [href]
    cases d.reference with
    | error f => exact ⟨.error (.malformed rfl rfl), rfl⟩
    | ok reference =>
      dsimp only
      cases (c.catalog.resolve disk reference.component).1 with
      | error e => exact ⟨.error (.catalog e _ _), rfl⟩
      | ok component =>
        dsimp only
        split
        · exact ⟨.ok _, rfl⟩
        · refine ⟨?_, rfl⟩
          cases (c.configs.load disk component.configPath).1 with
          | error e => exact .error (.config e _ _)
          | ok config => exact .ok _
  · rw [href, href']
    exact ⟨.error (.malformed rfl rfl), rfl⟩

/-- A text that is not the directive of its tag is malformed, and nothing is looked up for it. -/
theorem compileAt_of_parse_eq_none {cs : List Char} (h : (Directive.parse (leadingTag 0 cs).1 0 cs).toOption = none) (disk : Disk)
    (c : Compiler) : ∃ e, c.compileAt disk 0 cs = (.error e, c) ∧ e.kind = .malformedDirective := by
  rw [compileAt_eq]
  split
  · cases hparse : Directive.parse (leadingTag 0 cs).1 0 cs with
    | error f => exact ⟨_, rfl, rfl⟩
    | ok d =>
      rw [hparse] at h
      cases h
  · exact ⟨_, rfl, rfl⟩

theorem saysAs_shift (d : Directive) (n : Nat) (place : Span) : d.SaysAs { d.shift n with span := place } where
  component := rfl
  vars := by simp [Directive.shift, Located.shift, Function.comp_def]
  only := rfl
  ignoreMissing := rfl

/-- The answer to the directive in a block is like that to the directive without it. -/
theorem compileAt_wrap (h : Unopened body) (opening closing : Mark) (disk : Disk) (c : Compiler) :
    AnswersAlike (fun call => { call with span := ⟨0, byteLength (wrap opening closing body).toList⟩ })
        (c.compileAt disk 0 body.toList).1 (c.compileAt disk 0 (wrap opening closing body).toList).1 ∧
      (c.compileAt disk 0 (wrap opening closing body).toList).2 = (c.compileAt disk 0 body.toList).2 := by
  have hparse := toOption_parse_wrap h opening closing
  cases hbare : Directive.parse (leadingTag 0 body.toList).1 0 body.toList with
  | error f =>
    have hnone : (Directive.parse (leadingTag 0 (wrap opening closing body).toList).1 0 body.toList).toOption = none := by
      by_cases haccepted : Lexer.firstRejected 0 body.toList = none
      · rw [leadingTag_wrap h haccepted, hbare]
        rfl
      · cases hd : Directive.parse (leadingTag 0 (wrap opening closing body).toList).1 0 body.toList with
        | error f => rfl
        | ok d => exact absurd (Directive.parse_eq_ok_iff.mp hd).1 haccepted
    obtain ⟨e, hbody, hkind⟩ := compileAt_of_parse_eq_none (congrArg Except.toOption hbare) disk c
    have hnone' := (hparse (leadingTag 0 (wrap opening closing body).toList).1).trans (congrArg (Option.map _) hnone)
    obtain ⟨e', hwrap, hkind'⟩ := compileAt_of_parse_eq_none hnone' disk c
    rw [hbody, hwrap]
    exact ⟨.error (.malformed hkind hkind'), rfl⟩
  | ok d =>
    have htag := leadingTag_wrap h (Directive.parse_eq_ok_iff.mp hbare).1 opening closing
    have hwrap := hparse (leadingTag 0 body.toList).1
    rw [hbare] at hwrap
    rw [compileAt_eq, compileAt_eq, htag, hbare]
    split
    · cases hd : Directive.parse (leadingTag 0 body.toList).1 0 (wrap opening closing body).toList with
      | error f =>
        rw [hd] at hwrap
        cases hwrap
      | ok d' =>
        rw [hd] at hwrap
        obtain rfl := Option.some.inj hwrap
        have hsays := saysAs_shift d opening.before ⟨0, byteLength (wrap opening closing body).toList⟩
        obtain ⟨halike, hafter⟩ := resolve_alike hsays disk c
        exact ⟨halike.map hsays.call, hafter⟩
    · exact ⟨.error (.malformed rfl rfl), rfl⟩

/-- A text is a directive, on its own, if and only if it is one in a block, with a minus, a tilde or nothing at the
opening and at the closing and with a blank on either side. The directives have the same expressions and clauses, the
places of the expressions are moved by the length of what stands before the text, and the place of the directive is the
whole block. Both compile to the same call but for its place, or fail alike, and the compiler is the same afterwards. -/
theorem compileDirective_wrap (opening closing : Mark) (body : String) (h : Unopened body) :
    let text := wrap opening closing body
    let place : Span := ⟨0, byteLength text.toList⟩
    (∀ tag, (Directive.parse tag 0 text.toList).toOption = (Directive.parse tag 0 body.toList).toOption.map fun d =>
        { d.shift opening.before with span := place }) ∧
      ∀ (disk : Disk) (c : Compiler),
        AnswersAlike (fun call => { call with span := place }) (c.compileDirective disk body).1
            (c.compileDirective disk text).1 ∧
          (c.compileDirective disk text).2 = (c.compileDirective disk body).2 :=
  ⟨toOption_parse_wrap h opening closing, compileAt_wrap h opening closing⟩

/-- `render "@card" only` and `{%- render "@card" only ~%}` -/
theorem compileDirective_wrap_card :
    let body := "render \"@card\" only"
    Unopened body ∧ (wrap .minus .tilde body).toList = "\x7b%- render \"@card\" only ~%\x7d".toList ∧
      Directive.parse "render" 0 body.toList =
        .ok ⟨"render", ⟨.literal (.string "@card"), ⟨7, 14⟩⟩, none, true, false, ⟨0, 19⟩⟩ ∧
      (Directive.parse "render" 0 (wrap .minus .tilde body).toList).toOption =
        some ⟨"render", ⟨.literal (.string "@card"), ⟨11, 18⟩⟩, none, true, false, ⟨0, 27⟩⟩ := by
  intro body
  have haccepted : Lexer.firstRejected 0 body.toList = none := by decide +kernel
  have hlexemes : Lexer.lexemes 0 body.toList =
      [⟨.ident "render", ⟨0, 6⟩⟩, ⟨.string "@card", ⟨7, 14⟩⟩, ⟨.clause .only, ⟨15, 19⟩⟩] := by decide +kernel
  have hunopened : Unopened body := by
    intro _
    rw [Lexer.tokens, hlexemes]
    decide
  have hparse : Directive.parse "render" 0 body.toList =
      .ok ⟨"render", ⟨.literal (.string "@card"), ⟨7, 14⟩⟩, none, true, false, ⟨0, 19⟩⟩ := by
    rw [Directive.parse, Directive.scan_eq_ok haccepted hlexemes]
    rfl
  have hlength : byteLength (wrap .minus .tilde body).toList = 27 := by decide +kernel
  refine ⟨hunopened, by decide +kernel, hparse, ?_⟩
  rw [(compileDirective_wrap .minus .tilde body hunopened).1 "render", hparse]
  simp only [hlength]
  rfl

end Compiler

end Inclusion
