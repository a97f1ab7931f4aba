import Inclusion.Proofs.Grammar.Source
import Inclusion.Proofs.Template.Agreement
/-!
# Reading a template back

A template that is written as plain text without braces and directives in blocks, in any order, is taken apart into
what it was put together from: the blocks that are found are the written directives, each where it was put, and
parsing one gives back what was written.
-/

namespace Inclusion

open Grammar
open Lexer (Lexes)
open Template (firstWord blockLength)

namespace Source

/-- The tag of a directive, which is no keyword. -/
structure Tag where
  text : String
  isWord : Lexer.isWord text.toList = true
  ne_keyword : text ∉ ["ignore", "missing", "with", "only", "true", "false", "null", "none"]
  deriving Repr

/-- A directive in a block. -/
structure Call where
  tag : Tag
  component : Term
  missing : Bool
  vars : Option Term
  only : Bool

/-- A part of a template. -/
inductive Part
  | plain (text : List Char) (h : '{' ∉ text)
  | call (c : Call)

/-! ### The text -/

def missingText (missing : Bool) : List Char :=
  if missing then " ignore missing".toList else []

def varsText (spacing : Spacing) : Option Term → List Char
  | none => []
  | some t => " with ".toList ++ t.text spacing

def onlyText (only : Bool) : List Char :=
  if only then " only".toList else []

namespace Call

/-- The text of the directive after the opening of its block. -/
def body (spacing : Spacing) (c : Call) : List Char :=
  ' ' :: (c.tag.text.toList ++ ' ' :: (c.component.text spacing ++
    (missingText c.missing ++ (varsText spacing c.vars ++ (onlyText c.only ++ " %\x7d".toList)))))

def text (spacing : Spacing) (c : Call) : List Char :=
  '{' :: '%' :: c.body spacing

/-- The block of the directive when it stands at the place `start`. -/
def block (spacing : Spacing) (start : Nat) (c : Call) : Template.Block :=
  ⟨c.tag.text, c.text spacing, start⟩

/-- The directive says what was written. -/
structure IsReadAs (c : Call) (d : Directive) : Prop where
  tag : d.tag = c.tag.text
  component : d.component.value = c.component.expr
  ignoreMissing : d.ignoreMissing = c.missing
  vars : d.vars.map Located.value = c.vars.map Term.expr
  only : d.only = c.only

end Call

namespace Part

def text (spacing : Spacing) : Part → List Char
  | plain text _ => text
  | call c => c.text spacing

/-- The directives among parts that begin at the place `start`, each with the place where it begins. -/
def calls (spacing : Spacing) (start : Nat) : List Part → List (Nat × Call)
  | [] => []
  | plain text _ :: rest => calls spacing (start + byteLength text) rest
  | call c :: rest => (start, c) :: calls spacing (start + byteLength (c.text spacing)) rest

end Part

/-! ### One directive -/

namespace Call

variable (spacing : Spacing)

def sentence (c : Call) : Sentence :=
  ⟨true, c.component.chain, c.missing, c.vars.map Term.chain, c.only⟩

theorem token_tag (t : Tag) : Lexer.wordToken t.text.toList = .ident t.text :=
  Lexer.wordToken_eq_ident_iff.mpr t.ne_keyword

section Clauses

variable {rest : List Char} {ts : List Token}

theorem head?_missingText (missing : Bool) (hrest : rest.head? = some ' ') :
    (missingText missing ++ rest).head? = some ' ' := by
  cases missing with
  | false => exact hrest
  | true => rfl

theorem head?_varsText (vars : Option Term) (hrest : rest.head? = some ' ') :
    (varsText spacing vars ++ rest).head? = some ' ' := by
  cases vars with
  | none => exact hrest
  | some t => rfl

theorem head?_onlyText (only : Bool) (hrest : rest.head? = some ' ') :
    (onlyText only ++ rest).head? = some ' ' := by
  cases only with
  | false => exact hrest
  | true => rfl

theorem lexes_missing (missing : Bool) (hrest : rest.head? = some ' ') (h : Lexes rest ts) :
    Lexes (missingText missing ++ rest) (Sentence.missingTokens missing ++ ts) := by
  cases missing with
  | false => exact h
  | true =>
    have hmissing := (lexes_word "missing".toList (by decide) hrest h).blank
    exact (lexes_word "ignore".toList (by decide) rfl hmissing).blank

theorem lexes_vars (vars : Option Term) (hrest : rest.head? = some ' ') (h : Lexes rest ts) :
    Lexes (varsText spacing vars ++ rest) (Sentence.varsTokens (vars.map Term.chain) ++ ts) := by
  cases vars with
  | none => exact h
  | some t =>
    have hwith := (lexes_word "with".toList (by decide) rfl (t.lexes_term spacing hrest h).blank).blank
    show Lexes (" with ".toList ++ t.text spacing ++ rest) (.clause .with_ :: t.chain.tokens ++ ts)
    rw [List.append_assoc]
    exact hwith

theorem lexes_only (only : Bool) (hrest : rest.head? = some ' ') (h : Lexes rest ts) :
    Lexes (onlyText only ++ rest) (Sentence.onlyTokens only ++ ts) := by
  cases only with
  | false => exact h
  | true => exact (lexes_word "only".toList (by decide) hrest h).blank

end Clauses

theorem lexes_text (c : Call) : Lexes (c.text spacing) (c.sentence.tokens c.tag.text) := by
  have hclose : Lexes " %\x7d".toList [.blockClose] := (Lexes.nil.of_munch ['}'] rfl).blank
  have hhead : (onlyText c.only ++ " %\x7d".toList).head? = some ' ' := head?_onlyText c.only rfl
  have hhead' := head?_varsText spacing c.vars hhead
  have hvars := lexes_vars spacing c.vars hhead (lexes_only c.only rfl hclose)
  have hmissing := lexes_missing c.missing hhead' hvars
  have hcomponent := (c.component.lexes_term spacing (head?_missingText c.missing hhead') hmissing).blank
  have htag := (lexes_word _ c.tag.isWord rfl hcomponent).blank
  have hopen : Lexes ('{' :: (['%'] ++ _)) _ := htag.of_munch ['%'] rfl
  rw [token_tag] at hopen
  simpa [text, body, sentence, Sentence.tokens, Sentence.openTokens, Sentence.head, Sentence.closeTokens] using hopen

theorem parse_text (c : Call) (offset : Nat) :
    ∃ d, Directive.parse c.tag.text offset (c.text spacing) = .ok d ∧ c.IsReadAs d := by
  obtain ⟨hpieces, htokens⟩ := c.lexes_text spacing
  have haccepted : Lexer.firstRejected offset (c.text spacing) = none :=
    Lexer.firstRejectedFrom_eq_none offset fun p hp => (hpieces p hp).1
  rw [← Lexer.tokens_eq_filterMap] at htokens
  refine ⟨_, Directive.parse_eq_ok_iff.mpr ⟨haccepted, c.sentence, htokens.symm, rfl⟩, ?_⟩
  constructor
  · rfl
  · exact c.component.expr_chain
  · rfl
  · cases hvars : c.vars <;> simp [Directive.ofOutline, Sentence.outline, sentence, hvars, Term.expr_chain]
  · rfl

theorem closes_text (c : Call) : ['%', '}'] <:+ c.text spacing := by
  refine ⟨'{' :: '%' :: ' ' :: (c.tag.text.toList ++ ' ' :: (c.component.text spacing ++
    (missingText c.missing ++ (varsText spacing c.vars ++ (onlyText c.only ++ [' ']))))), ?_⟩
  simp [text, body]

/-- A directive ends its block, whatever comes after it. -/
theorem pieces_text_append (c : Call) (after : List Char) :
    Template.pieces (c.text spacing ++ after) = (.block, c.text spacing) :: Template.pieces after := by
  obtain ⟨d, hparse, -⟩ := c.parse_text spacing 0
  obtain ⟨mid, sign, hd⟩ := exists_dissected (c.closes_text spacing) hparse
  have hquotes := hd.outsideQuotes_of_no_comment fun p hp => ((c.lexes_text spacing).pieces p hp).2
  have hwhole := hd.endsWhole
  have hbody : c.body spacing = signOf (c.body spacing) ++ mid.flatMap Piece.text ++ sign ++ ['%', '}'] := hd.text
  rw [OutsideQuotes, hd.inside] at hquotes
  have hlength : blockLength none (c.body spacing ++ after) = (c.body spacing).length := by
    have happend : c.body spacing ++ after =
        signOf (c.body spacing) ++ mid.flatMap Piece.text ++ sign ++ '%' :: '}' :: after := by
      conv => lhs; rw [hbody]
      simp
    have hbody' := congrArg List.length hbody
    rw [List.length_append] at hbody'
    rw [happend, Template.blockLength_append_close hwhole hquotes, hbody']
    rfl
  rw [text, List.cons_append, List.cons_append, Template.pieces_block, hlength, List.take_left, List.drop_left]

theorem firstWord_text (c : Call) : firstWord (c.text spacing) = some c.tag.text := by
  obtain ⟨d, hparse, -⟩ := c.parse_text spacing 0
  obtain ⟨mid, sign, hd⟩ := exists_dissected (c.closes_text spacing) hparse
  exact hd.firstWord_eq_iff.mpr (tagFirst_of_no_comment fun p hp => ((c.lexes_text spacing).pieces p hp).2)

end Call

theorem blocksFrom_parts (spacing : Spacing) (tags : List String) (parts : List Part) (start : Nat) :
    Template.blocksFrom tags start (Template.pieces (parts.flatMap (Part.text spacing))) =
      ((Part.calls spacing start parts).filter fun p => p.2.tag.text ∈ tags).map fun p => p.2.block spacing p.1 := by
  induction parts generalizing start with
  | nil =>
    rw [List.flatMap_nil, Template.pieces]
    rfl
  | cons part parts ih =>
    rw [List.flatMap_cons]
    cases part with
    | plain text htext =>
      rw [Part.text, Template.blocksFrom_append htext, ih, Part.calls]
    | call c =>
      rw [Part.text, Call.pieces_text_append, Part.calls]
      by_cases htag : c.tag.text ∈ tags
      · rw [Template.blocksFrom_block (c.firstWord_text spacing) htag, ih, List.filter_cons_of_pos (by simpa using htag)]
        rfl
      · rw [List.filter_cons_of_neg (by simpa using htag), ← ih, Template.blocksFrom.eq_def]
        simp [(c.firstWord_text spacing), htag]

/-- A template is read back as it was written. The blocks that are found for some tags are the written directives with
these tags, from the first to the last, each with its text and at its place; and parsing the block of a directive, at
whatever place it stands, gives what was written. -/
theorem blocks_and_parse_text (spacing : Spacing) (tags : List String) (parts : List Part) :
    Template.blocks tags (parts.flatMap (Part.text spacing)) =
        ((Part.calls spacing 0 parts).filter fun p => p.2.tag.text ∈ tags).map (fun p => p.2.block spacing p.1) ∧
      ∀ (c : Call) (start : Nat), ∃ d,
        let b := c.block spacing start
        Directive.parse b.tag b.start b.text = .ok d ∧ c.IsReadAs d :=
  ⟨blocksFrom_parts spacing tags parts 0, fun c start => c.parse_text spacing start⟩

example :
    let item : Term := .concat (.name ⟨"only", by decide, by decide⟩ [⟨"b", by decide, by decide⟩])
      (.concat (.int (-7) (by decide)) (.string ⟨'\'', "it's %\x7d", .inr rfl⟩))
    let card : Call := {
      tag := ⟨"render", by decide, by decide⟩
      component := .string ⟨'"', "@card", .inl rfl⟩
      missing := true
      vars := some (.map [(⟨'"', "\x7b#", .inl rfl⟩, .list [item, .null])])
      only := true }
    card.text .tight =
      "\x7b% render \"@card\" ignore missing with \x7b \"\x7b#\" : [ only.b ~ ( -7 ~ 'it\\'s %\x7d' ) , null ] \x7d only %\x7d".toList := by
  decide +kernel

end Source

end Inclusion
