import Inclusion.Proofs.Grammar.Expr
import Inclusion.Proofs.Token.Written
/-!
# Expressions as they are written

A term is an expression with everything that its author chooses when writing it down: the quotes of each string. Its
text puts single blanks between the tokens, and parentheses around the right side of a concatenation if that is a
concatenation again. The tokens of this text are those of one chain (`lexes_term`), and the chain is the expression of
the term (`expr_chain`).
-/

namespace Inclusion

open Grammar
open Lexer (Lexes escape)

namespace Source

/-- Whether blanks also stand around the dots of a name and after a minus. -/
inductive Spacing
  | wide
  | tight
  deriving DecidableEq, Repr

def Spacing.gap : Spacing → List Char
  | wide => [' ']
  | tight => []

/-- A segment of a name. It can be a word of a clause. -/
structure Name where
  text : String
  isWord : Lexer.isWord text.toList = true
  ne_literal : text ∉ ["true", "false", "null", "none"]
  deriving DecidableEq, Repr

/-- A string in quotes. -/
structure Quoted where
  quote : Char
  contents : String
  isQuote : quote = '"' ∨ quote = '\''
  deriving DecidableEq, Repr

inductive Term
  | null
  | bool (b : Bool)
  | string (s : Quoted)
  | int (n : Int) (h : n.natAbs ≤ 2 ^ 63 - 1)
  | name (first : Name) (rest : List Name)
  | map (entries : List (Quoted × Term))
  | list (items : List Term)
  | concat (left right : Term)

namespace Term

mutual

/-- The expression that is written. -/
def expr : Term → Expr
  | null => .literal .null
  | bool b => .literal (.bool b)
  | string s => .literal (.string s.contents)
  | int n _ => .literal (.number (.int n))
  | name first rest => .name (first.text :: rest.map Name.text)
  | map entries => .map (pairs entries)
  | list items => .list (exprs items)
  | concat left right => .concat left.expr right.expr
termination_by structural t => t

def exprs : List Term → List Expr
  | [] => []
  | t :: rest => t.expr :: exprs rest
termination_by structural ts => ts

def pairs : List (Quoted × Term) → List (String × Expr)
  | [] => []
  | (k, t) :: rest => (k.contents, t.expr) :: pairs rest
termination_by structural es => es

end

end Term

/-! ### The text -/

def Quoted.textOf (s : Quoted) : List Char :=
  s.quote :: (escape s.quote s.contents.toList ++ [s.quote])

def intText (spacing : Spacing) (n : Int) : List Char :=
  if n < 0 then '-' :: (spacing.gap ++ Nat.toDigits 10 n.natAbs) else Nat.toDigits 10 n.natAbs

/-- The words after the first one of a name. -/
def segmentsText (spacing : Spacing) (words : List Name) : List Char :=
  words.flatMap fun w => spacing.gap ++ '.' :: (spacing.gap ++ w.text.toList)

/-- The text of the items that come next, with a comma before it if there are any. -/
def afterComma {α : Type} (items : List α) (text : List Char) : List Char :=
  match items with
  | [] => text
  | _ :: _ => ' ' :: ',' :: text

/-- The right side of a concatenation. -/
def Term.grouped (t : Term) (text : List Char) : List Char :=
  match t with
  | concat _ _ => '(' :: ' ' :: (text ++ [' ', ')'])
  | _ => text

namespace Term

mutual

def text (spacing : Spacing) : Term → List Char
  | null => "null".toList
  | bool true => "true".toList
  | bool false => "false".toList
  | string s => s.textOf
  | int n _ => intText spacing n
  | name first rest => first.text.toList ++ segmentsText spacing rest
  | map entries => '{' :: (entriesText spacing entries ++ [' ', '}'])
  | list items => '[' :: (itemsText spacing items ++ [' ', ']'])
  | concat left right => left.text spacing ++ ' ' :: '~' :: ' ' :: right.grouped (right.text spacing)
termination_by structural t => t

/-- The items of a list, with a blank before each. -/
def itemsText (spacing : Spacing) : List Term → List Char
  | [] => []
  | t :: rest => ' ' :: (t.text spacing ++ afterComma rest (itemsText spacing rest))
termination_by structural ts => ts

/-- The entries of a map, with a blank before each. -/
def entriesText (spacing : Spacing) : List (Quoted × Term) → List Char
  | [] => []
  | (k, t) :: rest =>
    ' ' :: (k.textOf ++ ' ' :: ':' :: ' ' :: (t.text spacing ++ afterComma rest (entriesText spacing rest)))
termination_by structural es => es

end

end Term

/-! ### The derivation -/

/-- The segment as a word of the grammar. -/
def Name.word (w : Name) : Word :=
  match w.text with
  | "ignore" => .clause .ignore
  | "missing" => .clause .missing
  | "with" => .clause .with_
  | "only" => .clause .only
  | text => .ident text

def intAtom (n : Int) : Atom :=
  if n < 0 then .negative (.integer n.natAbs) else .literal (.numeral (.integer n.natAbs))

/-- A chain as an operand; one with several atoms is put in parentheses. -/
def operand : Chain → Atom
  | .one a => a
  | .cons a c => .paren (.cons a c)

/-- Items with one more before them. -/
def itemsCons (c : Chain) : Items → Items
  | .nil => .one c
  | .one d => .cons c (.one d)
  | .cons d items => .cons c (.cons d items)

def entriesCons (k : Quoted) (c : Chain) : Entries → Entries
  | .nil => .one (.string k.contents) c
  | .one l d => .cons (.string k.contents) c (.one l d)
  | .cons l d entries => .cons (.string k.contents) c (.cons l d entries)

namespace Term

mutual

def chain : Term → Chain
  | null => .one (.literal .null)
  | bool b => .one (.literal (.bool b))
  | string s => .one (.literal (.string s.contents))
  | int n _ => .one (intAtom n)
  | name first rest => .one (.name first.word (rest.map Name.word))
  | map entries => .one (.map (entriesChain entries))
  | list items => .one (.list (itemsChain items))
  | concat left right => left.chain.snoc (operand right.chain)
termination_by structural t => t

def itemsChain : List Term → Items
  | [] => .nil
  | t :: rest => itemsCons t.chain (itemsChain rest)
termination_by structural ts => ts

def entriesChain : List (Quoted × Term) → Entries
  | [] => .nil
  | (k, t) :: rest => entriesCons k t.chain (entriesChain rest)
termination_by structural es => es

end

end Term

/-! ### The chain is the expression -/

theorem Name.text_word (w : Name) : w.word.text = w.text := by
  unfold word
  split <;> simp_all [Word.text, Clause.text]

theorem Name.token_word (w : Name) : w.word.token = Lexer.wordToken w.text.toList := by
  have hliteral := w.ne_literal
  simp only [List.mem_cons, List.not_mem_nil, or_false, not_or] at hliteral
  unfold word Lexer.wordToken
  rw [String.ofList_toList]
  split
  · next h => rw [h]; rfl
  · next h => rw [h]; rfl
  · next h => rw [h]; rfl
  · next h => rw [h]; rfl
  · split <;> simp_all [Word.token]

theorem expr_intAtom (n : Int) : (intAtom n).expr = .literal (.number (.int n)) := by
  unfold intAtom
  split
  · next hn =>
    have : -(n.natAbs : Int) = n := by omega
    rw [Atom.expr, Numeral.negative, this]
  · next hn =>
    have : (n.natAbs : Int) = n := by omega
    rw [Atom.expr, Literal.scalar, Numeral.scalar, this]

theorem expr_operand (c : Chain) : (operand c).expr = c.expr := by
  cases c <;> rfl

theorem exprs_itemsCons (c : Chain) (items : Items) : (itemsCons c items).exprs = c.expr :: items.exprs := by
  cases items <;> rfl

theorem pairs_entriesCons (k : Quoted) (c : Chain) (entries : Entries) :
    (entriesCons k c entries).pairs = (k.contents, c.expr) :: entries.pairs := by
  cases entries <;> rfl

namespace Term

mutual

theorem expr_chain : ∀ t : Term, t.chain.expr = t.expr
  | null => rfl
  | bool _ => rfl
  | string _ => rfl
  | int n _ => expr_intAtom n
  | name first rest => by
    show Expr.name (first.word.text :: (rest.map Name.word).map Word.text) = _
    rw [Name.text_word, List.map_map, expr]
    exact congrArg (fun texts => Expr.name (first.text :: texts)) (List.map_congr_left fun w _ => w.text_word)
  | map entries => by
    show Expr.map (entriesChain entries).pairs = _
    rw [pairs_entriesChain entries, expr]
  | list items => by
    show Expr.list (itemsChain items).exprs = _
    rw [exprs_itemsChain items, expr]
  | concat left right => by
    rw [chain, Chain.expr, Chain.exprAfter_snoc, expr_operand, expr_chain right, expr]
    exact congrArg (Expr.concat · right.expr) (expr_chain left)

theorem exprs_itemsChain : ∀ items : List Term, (itemsChain items).exprs = exprs items
  | [] => rfl
  | t :: rest => by rw [itemsChain, exprs_itemsCons, expr_chain t, exprs_itemsChain rest, exprs]

theorem pairs_entriesChain : ∀ entries : List (Quoted × Term), (entriesChain entries).pairs = pairs entries
  | [] => rfl
  | (k, t) :: rest => by rw [entriesChain, pairs_entriesCons, expr_chain t, pairs_entriesChain rest, pairs]

end

end Term

/-! ### The tokens of the chain -/

theorem tokens_itemsCons {items : Items} (h : items ≠ .nil) (c : Chain) :
    (itemsCons c items).tokens = c.tokens ++ .comma :: items.tokens := by
  cases items with
  | nil => exact absurd rfl h
  | _ => rfl

theorem tokens_entriesCons {entries : Entries} (h : entries ≠ .nil) (k : Quoted) (c : Chain) :
    (entriesCons k c entries).tokens = .string k.contents :: .colon :: (c.tokens ++ .comma :: entries.tokens) := by
  cases entries with
  | nil => exact absurd rfl h
  | _ => rfl

theorem Term.itemsChain_ne_nil (t : Term) (items : List Term) : Term.itemsChain (t :: items) ≠ .nil := by
  rw [itemsChain]
  cases itemsChain items <;> simp [itemsCons]

theorem Term.entriesChain_ne_nil (k : Quoted) (t : Term) (entries : List (Quoted × Term)) :
    Term.entriesChain ((k, t) :: entries) ≠ .nil := by
  rw [entriesChain]
  cases entriesChain entries <;> simp [entriesCons]

theorem operand_snoc (c : Chain) (a : Atom) : operand (c.snoc a) = .paren (c.snoc a) := by
  cases c <;> rfl

/-! ### The text is the tokens of the chain -/

section Text

variable {rest : List Char} {ts : List Token} {spacing : Spacing}

/-- A blank ends every token. -/
theorem of_blank {p : Char → Prop} (hp : p ' ') (hrest : rest.head? = some ' ') : ∀ c ∈ rest.head?, p c := by
  intro c hc
  rw [hrest] at hc
  cases hc
  exact hp

/-- A word with a blank after it. -/
theorem lexes_word (word : List Char) (hword : Lexer.isWord word = true) (hrest : rest.head? = some ' ')
    (h : Lexes rest ts) : Lexes (word ++ rest) (Lexer.wordToken word :: ts) :=
  h.word word hword (of_blank (p := fun c => isWordChar c = false) (by decide) hrest)

theorem lexes_gap (h : Lexes rest ts) : Lexes (spacing.gap ++ rest) ts := by
  cases spacing with
  | wide => exact h.blank
  | tight => exact h

theorem of_gap {p : Char → Prop} (hp : p ' ') (hrest : ∀ c ∈ rest.head?, p c) : ∀ c ∈ (spacing.gap ++ rest).head?, p c := by
  cases spacing with
  | wide => exact of_blank hp rfl
  | tight => exact hrest

theorem lexes_quoted (s : Quoted) (h : Lexes rest ts) : Lexes (s.textOf ++ rest) (.string s.contents :: ts) := by
  have hlexes := h.string s.isQuote s.contents
  simpa [Quoted.textOf] using hlexes

theorem lexes_int {n : Int} (hn : n.natAbs ≤ 2 ^ 63 - 1) (hrest : rest.head? = some ' ') (h : Lexes rest ts) :
    Lexes (intText spacing n ++ rest) ((intAtom n).tokens ++ ts) := by
  have hdigits : Lexes (Nat.toDigits 10 n.natAbs ++ rest) (.integer n.natAbs :: ts) :=
    h.integer (by omega) (of_blank (p := fun c => Lexer.continuesNumber c = false) (by decide) hrest)
  have hhead : ∀ c ∈ (Nat.toDigits 10 n.natAbs ++ rest).head?, c ≠ '%' ∧ c ≠ '#' := by
    intro c hc
    rw [List.head?_append_of_ne_nil _ Nat.toDigits_ne_nil] at hc
    have hdigit := Nat.isDigit_of_mem_toDigits (b := 10) (by decide) (by decide) (List.mem_of_mem_head? hc)
    constructor <;> rintro rfl <;> exact absurd hdigit (by decide)
  unfold intText intAtom
  split
  · rw [List.cons_append, List.append_assoc]
    exact (lexes_gap hdigits).symbol rfl (of_gap (p := fun c => c ≠ '%' ∧ c ≠ '#') (by decide) hhead)
  · exact hdigits

theorem lexes_name (w : Name) (hrest : ∀ c ∈ rest.head?, isWordChar c = false) (h : Lexes rest ts) :
    Lexes (w.text.toList ++ rest) (w.word.token :: ts) := by
  rw [w.token_word]
  exact h.word _ w.isWord hrest

theorem head?_segmentsText (spacing : Spacing) (words : List Name) (hrest : rest.head? = some ' ') :
    ∀ c ∈ (segmentsText spacing words ++ rest).head?, isWordChar c = false := by
  cases words with
  | nil => exact of_blank (p := fun c => isWordChar c = false) (by decide) hrest
  | cons w words =>
    have htext : segmentsText spacing (w :: words) ++ rest =
        spacing.gap ++ '.' :: (spacing.gap ++ w.text.toList ++ (segmentsText spacing words ++ rest)) := by
      simp [segmentsText]
    rw [htext]
    refine of_gap (p := fun c => isWordChar c = false) (by decide) fun c hc => ?_
    cases hc
    decide

theorem head?_name (w : Name) : ∀ c ∈ (w.text.toList ++ rest).head?, c ≠ '%' ∧ c ≠ '#' := by
  have hword := w.isWord
  intro c hc
  cases htext : w.text.toList with
  | nil =>
    rw [htext] at hword
    cases hword
  | cons d ds =>
    rw [htext] at hword hc
    cases hc
    rw [Lexer.isWord, Bool.and_eq_true] at hword
    constructor <;> rintro rfl <;> exact absurd hword.1 (by decide)

theorem lexes_segments (spacing : Spacing) (words : List Name) (hrest : rest.head? = some ' ') (h : Lexes rest ts) :
    Lexes (segmentsText spacing words ++ rest) (segments (words.map Name.word) ++ ts) := by
  induction words with
  | nil => exact h
  | cons w words ih =>
    have htext : segmentsText spacing (w :: words) ++ rest =
        spacing.gap ++ '.' :: (spacing.gap ++ (w.text.toList ++ (segmentsText spacing words ++ rest))) := by
      simp [segmentsText]
    have hword := lexes_name w (head?_segmentsText spacing words hrest) ih
    rw [htext]
    exact lexes_gap ((lexes_gap hword).symbol rfl (of_gap (p := fun c => c ≠ '%' ∧ c ≠ '#') (by decide) (head?_name w)))

/-- A symbol with a blank after it. -/
theorem lexes_symbol {c : Char} {t : Token} (hc : Lexer.symbol? c = some t) (hrest : rest.head? = some ' ')
    (h : Lexes rest ts) : Lexes (c :: rest) (t :: ts) :=
  h.symbol hc (of_blank (p := fun c => c ≠ '%' ∧ c ≠ '#') (by decide) hrest)

namespace Term

theorem head?_itemsText (items : List Term) (hrest : rest.head? = some ' ') :
    (itemsText spacing items ++ rest).head? = some ' ' := by
  cases items with
  | nil => exact hrest
  | cons t items => rfl

theorem head?_entriesText (entries : List (Quoted × Term)) (hrest : rest.head? = some ' ') :
    (entriesText spacing entries ++ rest).head? = some ' ' := by
  cases entries with
  | nil => exact hrest
  | cons e entries => rfl

theorem lexes_grouped {t : Term} (hterm : ∀ {rest : List Char} {ts : List Token}, rest.head? = some ' ' →
    Lexes rest ts → Lexes (t.text spacing ++ rest) (t.chain.tokens ++ ts)) (hrest : rest.head? = some ' ')
    (h : Lexes rest ts) : Lexes (t.grouped (t.text spacing) ++ rest) ((operand t.chain).tokens ++ ts) := by
  cases t with
  | concat left right =>
    have hclose := (lexes_symbol (c := ')') rfl hrest h).blank
    have hopen := lexes_symbol (c := '(') rfl rfl (hterm rfl hclose).blank
    rw [chain, operand_snoc]
    simpa [grouped, Atom.tokens, chain] using hopen
  | _ => exact hterm hrest h

mutual

theorem lexes_term (spacing : Spacing) : ∀ (t : Term) {rest : List Char} {ts : List Token},
    rest.head? = some ' ' → Lexes rest ts → Lexes (t.text spacing ++ rest) (t.chain.tokens ++ ts)
  | null, _, _, hrest, h => lexes_word "null".toList (by decide) hrest h
  | bool true, _, _, hrest, h => lexes_word "true".toList (by decide) hrest h
  | bool false, _, _, hrest, h => lexes_word "false".toList (by decide) hrest h
  | string s, _, _, _, h => lexes_quoted s h
  | int _ hn, _, _, hrest, h => lexes_int hn hrest h
  | name first words, _, _, hrest, h => by
    have hname := lexes_name first (head?_segmentsText spacing words hrest) (lexes_segments spacing words hrest h)
    rw [text, List.append_assoc]
    exact hname
  | map entries, _, _, hrest, h => by
    have hclose := (lexes_symbol (c := '}') rfl hrest h).blank
    have hopen := lexes_symbol (c := '{') rfl (head?_entriesText entries rfl) (lexes_entries spacing entries rfl hclose)
    simpa [text, chain, Chain.tokens, Atom.tokens] using hopen
  | list items, _, _, hrest, h => by
    have hclose := (lexes_symbol (c := ']') rfl hrest h).blank
    have hopen := lexes_symbol (c := '[') rfl (head?_itemsText items rfl) (lexes_items spacing items rfl hclose)
    simpa [text, chain, Chain.tokens, Atom.tokens] using hopen
  | concat left right, _, _, hrest, h => by
    have hright := (lexes_grouped (lexes_term spacing right) hrest h).blank
    have hleft := lexes_term spacing left rfl (lexes_symbol (c := '~') rfl rfl hright).blank
    rw [text, chain, Chain.tokens_snoc]
    simpa using hleft

theorem lexes_items (spacing : Spacing) : ∀ (items : List Term) {rest : List Char} {ts : List Token},
    rest.head? = some ' ' → Lexes rest ts → Lexes (itemsText spacing items ++ rest) ((itemsChain items).tokens ++ ts)
  | [], _, _, _, h => h
  | [t], _, _, hrest, h => by
    have hitem := (lexes_term spacing t hrest h).blank
    simpa [itemsText, afterComma, itemsChain, itemsCons, Items.tokens] using hitem
  | t :: u :: items, _, _, hrest, h => by
    have hcomma := lexes_symbol (c := ',') rfl rfl (lexes_items spacing (u :: items) hrest h)
    have hitem := (lexes_term spacing t rfl hcomma.blank).blank
    rw [itemsText, itemsChain, tokens_itemsCons (itemsChain_ne_nil u items)]
    simpa [afterComma] using hitem

theorem lexes_entries (spacing : Spacing) : ∀ (entries : List (Quoted × Term)) {rest : List Char} {ts : List Token},
    rest.head? = some ' ' → Lexes rest ts → Lexes (entriesText spacing entries ++ rest) ((entriesChain entries).tokens ++ ts)
  | [], _, _, _, h => h
  | [(k, t)], _, _, hrest, h => by
    have hcolon := lexes_symbol (c := ':') rfl rfl (lexes_term spacing t hrest h).blank
    have hentry := (lexes_quoted k hcolon.blank).blank
    simpa [entriesText, afterComma, entriesChain, entriesCons, Entries.tokens, Key.token] using hentry
  | (k, t) :: (l, u) :: entries, _, _, hrest, h => by
    have hcomma := lexes_symbol (c := ',') rfl rfl (lexes_entries spacing ((l, u) :: entries) hrest h)
    have hcolon := lexes_symbol (c := ':') rfl rfl (lexes_term spacing t rfl hcomma.blank).blank
    have hentry := (lexes_quoted k hcolon.blank).blank
    rw [entriesText, entriesChain, tokens_entriesCons (entriesChain_ne_nil l u entries)]
    simpa [afterComma] using hentry

end

end Term

end Text

end Source

end Inclusion
