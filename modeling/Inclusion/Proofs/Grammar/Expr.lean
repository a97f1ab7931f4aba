import Inclusion.Proofs.Grammar.Unambiguous
import Inclusion.Proofs.Token.Reader
/-!
# The reader of expressions accepts the chains

One direction follows the trees: from the place before an atom, the tokens of a tree take the reader to the place
after it, with the expression of the tree added (`run_chain`). The other follows the reader: `Reads r ts` says
what the tokens `ts` must be for the reader to be in the state `r`, piece by piece along the stack of open brackets,
and every step keeps it (`Reads.step`). At the end the stack is empty and what is left is one chain.
-/

namespace Inclusion

open Grammar

namespace Expr

namespace Reader

/-! ### The tokens of a tree -/

/-- The reader has read the expression `e`. If that ends in a name, the name could still go on with a dot. -/
inductive Done (e : Expr) (stack : List Frame) : Reader → Prop
  | operator : Done e stack ⟨.operator e, stack⟩
  | name (left : Option Expr) (path : List String) (h : join left (.name path.reverse) = e) :
    Done e stack ⟨.name left path, stack⟩

theorem Done.step {e : Expr} {stack : List Frame} {r : Reader} (h : Done e stack r) {t : Token} (ht : t ≠ .dot) :
    r.step t = stepOperator e stack t := by
  cases h with
  | operator => rfl
  | name left path h =>
    subst h
    exact if_neg ht

theorem Done.finish {e : Expr} {r : Reader} (h : Done e [] r) : r.finish = some e := by
  cases h with
  | operator => rfl
  | name left path h => exact congrArg some h

theorem literal?_token (l : Literal) : literal? l.token = some l.scalar := by
  cases l with
  | numeral n => cases n <;> rfl
  | _ => rfl

theorem negated?_token (n : Numeral) : negated? n.token = some n.negative := by
  cases n <;> rfl

theorem word?_token (w : Word) : w.token.word? = some w.text := by
  cases w <;> rfl

theorem key?_token (k : Key) : key? k.token = some k.text := by
  cases k with
  | word w => cases w <;> rfl
  | string s => rfl

theorem stepOperand_word (left : Option Expr) (stack : List Frame) (w : Word) :
    stepOperand left stack w.token = some ⟨.name left [w.text], stack⟩ := by
  cases w <;> rfl

theorem run_segments (left : Option Expr) (stack : List Frame) (path : List String) (ws : List Word) :
    reader.run ⟨.name left path, stack⟩ (segments ws) = some ⟨.name left ((ws.map Word.text).reverse ++ path), stack⟩ := by
  induction ws generalizing path with
  | nil => rfl
  | cons w ws ih =>
    have hdot : reader.step ⟨.name left path, stack⟩ .dot = some ⟨.segment left path, stack⟩ := rfl
    have hword : reader.step ⟨.segment left path, stack⟩ w.token = some ⟨.name left (w.text :: path), stack⟩ := by
      simp only [reader, step, word?_token, Option.map_some]
    show reader.run _ (.dot :: w.token :: segments ws) = _
    rw [reader.run_cons_of_step hdot, reader.run_cons_of_step hword, ih]
    simp

/-- Before an item, a reader that does not find the end of the list reads as it does before an operand. -/
theorem run_item_chain (left : Option Expr) (items : List Expr) (stack : List Frame) (c : Chain) :
    reader.run ⟨.item left items, stack⟩ c.tokens = reader.run ⟨.operand none, .list left items :: stack⟩ c.tokens := by
  obtain ⟨t, ts, h, ht⟩ := c.tokens_eq_cons
  have hne : t ≠ .bracketClose := by
    rintro rfl
    simp [alternative?] at ht
  have hstep : reader.step ⟨.item left items, stack⟩ t = reader.step ⟨.operand none, .list left items :: stack⟩ t := if_neg hne
  rw [h, reader.run_cons, reader.run_cons, hstep]

theorem run_key (left : Option Expr) (entries : List (String × Expr)) (stack : List Frame) (k : Key) (ts : List Token) :
    reader.run ⟨.key left entries, stack⟩ (k.token :: .colon :: ts) =
      reader.run ⟨.operand none, .map left entries k.text :: stack⟩ ts := by
  have hkey : reader.step ⟨.key left entries, stack⟩ k.token = some ⟨.colon left entries k.text, stack⟩ := by
    simp only [reader, step, if_neg k.token_ne_braceClose, key?_token, Option.map_some]
  have hcolon : reader.step ⟨.colon left entries k.text, stack⟩ .colon =
      some ⟨.operand none, .map left entries k.text :: stack⟩ := rfl
  rw [reader.run_cons_of_step hkey, reader.run_cons_of_step hcolon]

mutual

theorem run_chain : ∀ (c : Chain) (left : Option Expr) (stack : List Frame),
    ∃ r, reader.run ⟨.operand left, stack⟩ c.tokens = some r ∧ Done (c.exprAfter left) stack r
  | .one a, left, stack => run_atom a left stack
  | .cons a c, left, stack => by
    obtain ⟨r, hrun, hdone⟩ := run_atom a left stack
    obtain ⟨r', hrun', hdone'⟩ := run_chain c (some (join left a.expr)) stack
    have htilde : reader.step r .tilde = some ⟨.operand (some (join left a.expr)), stack⟩ := hdone.step (by decide)
    refine ⟨r', ?_, hdone'⟩
    rw [Chain.tokens, reader.run_append_of_run hrun, reader.run_cons_of_step htilde, hrun']

theorem run_atom : ∀ (a : Atom) (left : Option Expr) (stack : List Frame),
    ∃ r, reader.run ⟨.operand left, stack⟩ a.tokens = some r ∧ Done (join left a.expr) stack r
  | .literal l, left, stack => by
    have hstep : reader.step ⟨.operand left, stack⟩ l.token = some ⟨.operator (join left (.literal l.scalar)), stack⟩ := by
      simp only [reader, step, stepOperand, literal?_token]
    exact ⟨_, reader.run_cons_of_step hstep [], .operator⟩
  | .negative n, left, stack => by
    have hminus : reader.step ⟨.operand left, stack⟩ .minus = some ⟨.negated left, stack⟩ := rfl
    have hstep : reader.step ⟨.negated left, stack⟩ n.token = some ⟨.operator (join left (.literal n.negative)), stack⟩ := by
      simp only [reader, step, negated?_token, Option.map_some]
    exact ⟨_, (reader.run_cons_of_step hminus _).trans (reader.run_cons_of_step hstep []), .operator⟩
  | .name first rest, left, stack => by
    have hstep : reader.step ⟨.operand left, stack⟩ first.token = some ⟨.name left [first.text], stack⟩ :=
      stepOperand_word left stack first
    refine ⟨_, (reader.run_cons_of_step hstep _).trans (run_segments left stack _ rest), .name _ _ ?_⟩
    simp [Atom.expr]
  | .paren c, left, stack => by
    have hopen : reader.step ⟨.operand left, stack⟩ .parenOpen = some ⟨.operand none, .paren left :: stack⟩ := rfl
    obtain ⟨r, hrun, hdone⟩ := run_chain c none (.paren left :: stack)
    have hclose : reader.step r .parenClose = some ⟨.operator (join left (c.exprAfter none)), stack⟩ := hdone.step (by decide)
    refine ⟨_, ?_, .operator⟩
    rw [Atom.tokens, reader.run_cons_of_step hopen, reader.run_append_of_run hrun, reader.run_cons_of_step hclose, reader.run_nil]
    rfl
  | .list items, left, stack => by
    have hopen : reader.step ⟨.operand left, stack⟩ .bracketOpen = some ⟨.item left [], stack⟩ := rfl
    refine ⟨_, ?_, .operator⟩
    rw [Atom.tokens, reader.run_cons_of_step hopen, run_items items left [] stack]
    rfl
  | .map entries, left, stack => by
    have hopen : reader.step ⟨.operand left, stack⟩ .braceOpen = some ⟨.key left [], stack⟩ := rfl
    refine ⟨_, ?_, .operator⟩
    rw [Atom.tokens, reader.run_cons_of_step hopen, run_entries entries left [] stack]
    rfl

theorem run_items : ∀ (items : Items) (left : Option Expr) (before : List Expr) (stack : List Frame),
    reader.run ⟨.item left before, stack⟩ (items.tokens ++ [.bracketClose]) =
      some ⟨.operator (join left (.list (before.reverse ++ items.exprs))), stack⟩
  | .nil, left, before, stack => by
    rw [Items.exprs, List.append_nil]
    rfl
  | .one c, left, before, stack => by
    obtain ⟨r, hrun, hdone⟩ := run_chain c none (.list left before :: stack)
    have hclose : reader.step r .bracketClose = some ⟨.operator (join left (.list (c.exprAfter none :: before).reverse)), stack⟩ :=
      hdone.step (by decide)
    rw [← run_item_chain] at hrun
    rw [Items.tokens, reader.run_append_of_run hrun, reader.run_cons_of_step hclose, List.reverse_cons]
    rfl
  | .cons c items, left, before, stack => by
    obtain ⟨r, hrun, hdone⟩ := run_chain c none (.list left before :: stack)
    have hcomma : reader.step r .comma = some ⟨.item left (c.exprAfter none :: before), stack⟩ := hdone.step (by decide)
    rw [← run_item_chain] at hrun
    rw [Items.tokens, List.append_assoc, reader.run_append_of_run hrun, List.cons_append, reader.run_cons_of_step hcomma, run_items,
      List.reverse_cons, List.append_assoc]
    rfl

theorem run_entries : ∀ (entries : Entries) (left : Option Expr) (before : List (String × Expr)) (stack : List Frame),
    reader.run ⟨.key left before, stack⟩ (entries.tokens ++ [.braceClose]) =
      some ⟨.operator (join left (.map (before.reverse ++ entries.pairs))), stack⟩
  | .nil, left, before, stack => by
    rw [Entries.pairs, List.append_nil]
    rfl
  | .one k c, left, before, stack => by
    obtain ⟨r, hrun, hdone⟩ := run_chain c none (.map left before k.text :: stack)
    have hclose : reader.step r .braceClose =
        some ⟨.operator (join left (.map ((k.text, c.exprAfter none) :: before).reverse)), stack⟩ := hdone.step (by decide)
    rw [Entries.tokens, List.cons_append, List.cons_append, run_key, reader.run_append_of_run hrun, reader.run_cons_of_step hclose,
      List.reverse_cons]
    rfl
  | .cons k c entries, left, before, stack => by
    obtain ⟨r, hrun, hdone⟩ := run_chain c none (.map left before k.text :: stack)
    have hcomma : reader.step r .comma = some ⟨.key left ((k.text, c.exprAfter none) :: before), stack⟩ :=
      hdone.step (by decide)
    rw [Entries.tokens, List.cons_append, List.cons_append, List.append_assoc, run_key, reader.run_append_of_run hrun,
      List.cons_append, reader.run_cons_of_step hcomma, run_entries, List.reverse_cons, List.append_assoc]
    rfl

end

end Reader

end Expr

/-! ### Trees from the left -/

namespace Grammar

/-- The chain with one more atom at its end. -/
def Chain.snoc : Chain → Atom → Chain
  | .one b, a => .cons b (.one a)
  | .cons b rest, a => .cons b (rest.snoc a)

theorem Chain.tokens_snoc : ∀ (c : Chain) (a : Atom), (c.snoc a).tokens = c.tokens ++ .tilde :: a.tokens
  | .one _, _ => rfl
  | .cons _ rest, a => by
    rw [snoc, tokens, rest.tokens_snoc, tokens, List.append_assoc, List.cons_append]

theorem Chain.exprAfter_snoc : ∀ (c : Chain) (a : Atom) (left : Option Expr),
    (c.snoc a).exprAfter left = .concat (c.exprAfter left) a.expr
  | .one _, _, _ => rfl
  | .cons _ rest, a, _ => rest.exprAfter_snoc a _

/-- Items, each with a comma after it, and then perhaps one without. -/
def Items.ofList : List Chain → Option Chain → Items
  | [], none => .nil
  | [], some c => .one c
  | c :: cs, last => .cons c (ofList cs last)

def Entries.ofList : List (Key × Chain) → Option (Key × Chain) → Entries
  | [], none => .nil
  | [], some (k, c) => .one k c
  | (k, c) :: es, last => .cons k c (ofList es last)

/-- The tokens of items with a comma after each. -/
def listed (cs : List Chain) : List Token :=
  cs.flatMap fun c => c.tokens ++ [.comma]

def entryTokens (e : Key × Chain) : List Token :=
  e.1.token :: .colon :: e.2.tokens

def mapped (es : List (Key × Chain)) : List Token :=
  es.flatMap fun e => entryTokens e ++ [.comma]

def entryPair (e : Key × Chain) : String × Expr :=
  (e.1.text, e.2.expr)

theorem Items.tokens_ofList (cs : List Chain) (last : Option Chain) :
    (ofList cs last).tokens = listed cs ++ (last.map Chain.tokens).getD [] := by
  induction cs with
  | nil => cases last <;> rfl
  | cons c cs ih => simp [ofList, tokens, ih, listed]

theorem Items.exprs_ofList (cs : List Chain) (last : Option Chain) :
    (ofList cs last).exprs = cs.map Chain.expr ++ last.toList.map Chain.expr := by
  induction cs with
  | nil => cases last <;> rfl
  | cons c cs ih => simp [ofList, exprs, ih, Chain.expr]

theorem Entries.tokens_ofList (es : List (Key × Chain)) (last : Option (Key × Chain)) :
    (ofList es last).tokens = mapped es ++ (last.map entryTokens).getD [] := by
  induction es with
  | nil => cases last <;> rfl
  | cons e es ih => simp [ofList, tokens, ih, mapped, entryTokens]

theorem Entries.pairs_ofList (es : List (Key × Chain)) (last : Option (Key × Chain)) :
    (ofList es last).pairs = es.map entryPair ++ last.toList.map entryPair := by
  induction es with
  | nil => cases last <;> rfl
  | cons e es ih => simp [ofList, pairs, ih, entryPair, Chain.expr]

end Grammar

namespace Expr

namespace Reader

/-- The tokens of a chain are read from the start. -/
theorem run_start (c : Chain) : ∃ r, reader.run start c.tokens = some r ∧ Done c.expr [] r :=
  run_chain c none []

/-! ### What has been read -/

/-- The tokens from the beginning of a chain to the place before its next atom. -/
inductive Before : Option Expr → List Token → Prop
  | none : Before none []
  | some (c : Chain) : Before (some c.expr) (c.tokens ++ [.tilde])

theorem Before.atom {left : Option Expr} {us : List Token} (h : Before left us) (a : Atom) :
    ∃ c : Chain, c.tokens = us ++ a.tokens ∧ c.expr = join left a.expr := by
  cases h with
  | none => exact ⟨.one a, rfl, rfl⟩
  | some c =>
    refine ⟨c.snoc a, ?_, c.exprAfter_snoc a Option.none⟩
    rw [c.tokens_snoc, List.append_assoc]
    rfl

/-- The tokens up to the inside of the open brackets. -/
inductive Opened : List Frame → List Token → Prop
  | nil : Opened [] []
  | paren {stack ts left us} : Opened stack ts → Before left us → Opened (.paren left :: stack) (ts ++ us ++ [.parenOpen])
  | list {stack ts left us} (cs : List Chain) : Opened stack ts → Before left us →
    Opened (.list left (cs.map Chain.expr).reverse :: stack) (ts ++ us ++ .bracketOpen :: listed cs)
  | map {stack ts left us} (es : List (Key × Chain)) (k : Key) : Opened stack ts → Before left us →
    Opened (.map left (es.map entryPair).reverse k.text :: stack)
      (ts ++ us ++ .braceOpen :: (mapped es ++ [k.token, .colon]))

/-- The tokens that a reader in some state has read. -/
inductive Reads : Reader → List Token → Prop
  | operand {stack ts left us} : Opened stack ts → Before left us → Reads ⟨.operand left, stack⟩ (ts ++ us)
  | negated {stack ts left us} : Opened stack ts → Before left us → Reads ⟨.negated left, stack⟩ (ts ++ us ++ [.minus])
  | segment {stack ts left us} (first : Word) (ws : List Word) : Opened stack ts → Before left us →
    Reads ⟨.segment left ((first :: ws).map Word.text).reverse, stack⟩
      (ts ++ us ++ (Atom.name first ws).tokens ++ [.dot])
  | name {stack ts left us} (first : Word) (ws : List Word) : Opened stack ts → Before left us →
    Reads ⟨.name left ((first :: ws).map Word.text).reverse, stack⟩ (ts ++ us ++ (Atom.name first ws).tokens)
  | operator {stack ts} (c : Chain) : Opened stack ts → Reads ⟨.operator c.expr, stack⟩ (ts ++ c.tokens)
  | item {stack ts left us} (cs : List Chain) : Opened stack ts → Before left us →
    Reads ⟨.item left (cs.map Chain.expr).reverse, stack⟩ (ts ++ us ++ .bracketOpen :: listed cs)
  | key {stack ts left us} (es : List (Key × Chain)) : Opened stack ts → Before left us →
    Reads ⟨.key left (es.map entryPair).reverse, stack⟩ (ts ++ us ++ .braceOpen :: mapped es)
  | colon {stack ts left us} (es : List (Key × Chain)) (k : Key) : Opened stack ts → Before left us →
    Reads ⟨.colon left (es.map entryPair).reverse k.text, stack⟩
      (ts ++ us ++ .braceOpen :: (mapped es ++ [k.token]))

theorem reads_start : Reads start [] :=
  .operand .nil .none

/-- An atom that has just been read becomes the end of its chain. -/
theorem reads_atom {stack : List Frame} {ts us vs : List Token} {left : Option Expr} (hopened : Opened stack ts)
    (hbefore : Before left us) (a : Atom) (htokens : vs = ts ++ us ++ a.tokens) :
    Reads ⟨.operator (join left a.expr), stack⟩ vs := by
  obtain ⟨c, hc, he⟩ := hbefore.atom a
  rw [htokens, List.append_assoc, ← hc, ← he]
  exact .operator c hopened

theorem exists_literal {t : Token} {s : Scalar} (h : literal? t = some s) : ∃ l : Literal, l.token = t ∧ l.scalar = s := by
  cases t with
  | string u => exact ⟨.string u, rfl, Option.some.inj h⟩
  | bool b => exact ⟨.bool b, rfl, Option.some.inj h⟩
  | null => exact ⟨.null, rfl, Option.some.inj h⟩
  | integer n => exact ⟨.numeral (.integer n), rfl, Option.some.inj h⟩
  | float x => exact ⟨.numeral (.float x), rfl, Option.some.inj h⟩
  | _ => cases h

theorem exists_numeral {t : Token} {s : Scalar} (h : negated? t = some s) :
    ∃ n : Numeral, n.token = t ∧ n.negative = s := by
  cases t with
  | integer n => exact ⟨.integer n, rfl, Option.some.inj h⟩
  | float x => exact ⟨.float x, rfl, Option.some.inj h⟩
  | _ => cases h

theorem exists_word {t : Token} {s : String} (h : t.word? = some s) : ∃ w : Word, w.token = t ∧ w.text = s := by
  cases t with
  | ident name => exact ⟨.ident name, rfl, Option.some.inj h⟩
  | clause c => exact ⟨.clause c, rfl, Option.some.inj h⟩
  | _ => cases h

theorem exists_key {t : Token} {s : String} (h : key? t = some s) : ∃ k : Key, k.token = t ∧ k.text = s := by
  cases t with
  | string u => exact ⟨.string u, rfl, Option.some.inj h⟩
  | ident name => exact ⟨.word (.ident name), rfl, Option.some.inj h⟩
  | clause c => exact ⟨.word (.clause c), rfl, Option.some.inj h⟩
  | _ => cases h

theorem reads_stepOperand {stack : List Frame} {ts us : List Token} {left : Option Expr} (hopened : Opened stack ts)
    (hbefore : Before left us) {t : Token} {r : Reader} (h : stepOperand left stack t = some r) :
    Reads r (ts ++ us ++ [t]) := by
  unfold stepOperand at h
  split at h
  · next s hs =>
    obtain ⟨l, rfl, rfl⟩ := exists_literal hs
    cases h
    exact reads_atom hopened hbefore (.literal l) rfl
  · split at h
    · next w hw =>
      obtain ⟨w, rfl, rfl⟩ := exists_word hw
      cases h
      exact .name w [] hopened hbefore
    · split at h
      · cases h
        exact .negated hopened hbefore
      · cases h
        exact .key [] hopened hbefore
      · cases h
        exact .item [] hopened hbefore
      · cases h
        have := Reads.operand (Opened.paren hopened hbefore) Before.none
        rwa [List.append_nil] at this
      · cases h

theorem reads_stepOperator {stack : List Frame} {ts : List Token} (hopened : Opened stack ts) (c : Chain) {t : Token}
    {r : Reader} (h : stepOperator c.expr stack t = some r) : Reads r (ts ++ c.tokens ++ [t]) := by
  unfold stepOperator at h
  split at h
  · cases h
    rw [List.append_assoc]
    exact .operand hopened (.some c)
  · cases h
    cases hopened with
    | paren hopened hbefore =>
      refine reads_atom hopened hbefore (.paren c) ?_
      simp [Atom.tokens]
  · cases h
    cases hopened with
    | list cs hopened hbefore =>
      have hreads := Reads.item (cs ++ [c]) hopened hbefore
      simpa [listed] using hreads
  · cases h
    cases hopened with
    | list cs hopened hbefore =>
      have hreads := reads_atom hopened hbefore (.list (Items.ofList cs (some c))) rfl
      simpa [Atom.tokens, Atom.expr, Items.tokens_ofList, Items.exprs_ofList] using hreads
  · cases h
    cases hopened with
    | map es k hopened hbefore =>
      have hreads := Reads.key (es ++ [(k, c)]) hopened hbefore
      simpa [mapped, entryTokens, entryPair] using hreads
  · cases h
    cases hopened with
    | map es k hopened hbefore =>
      have hreads := reads_atom hopened hbefore (.map (Entries.ofList es (some (k, c)))) rfl
      simpa [Atom.tokens, Atom.expr, Entries.tokens_ofList, Entries.pairs_ofList, entryTokens, entryPair] using hreads
  · cases h

theorem Reads.step {r r' : Reader} {ts : List Token} {t : Token} (hreads : Reads r ts) (h : r.step t = some r') :
    Reads r' (ts ++ [t]) := by
  cases hreads with
  | operand hopened hbefore => exact reads_stepOperand hopened hbefore h
  | negated hopened hbefore =>
    obtain ⟨s, hs, rfl⟩ := Option.map_eq_some_iff.mp h
    obtain ⟨n, rfl, rfl⟩ := exists_numeral hs
    refine reads_atom hopened hbefore (.negative n) ?_
    simp [Atom.tokens]
  | segment first ws hopened hbefore =>
    obtain ⟨s, hs, rfl⟩ := Option.map_eq_some_iff.mp h
    obtain ⟨w, rfl, rfl⟩ := exists_word hs
    have hreads := Reads.name first (ws ++ [w]) hopened hbefore
    simpa [Atom.tokens, segments] using hreads
  | name first ws hopened hbefore =>
    simp only [Reader.step] at h
    split at h
    · next ht =>
      cases h
      rw [ht]
      exact .segment first ws hopened hbefore
    · rw [List.reverse_reverse] at h
      obtain ⟨c, hc, he⟩ := hbefore.atom (.name first ws)
      have hreads := reads_stepOperator hopened c (he ▸ h)
      rwa [hc, ← List.append_assoc] at hreads
  | operator c hopened => exact reads_stepOperator hopened c h
  | item cs hopened hbefore =>
    simp only [Reader.step] at h
    split at h
    · next ht =>
      cases h
      rw [ht]
      have hreads := reads_atom hopened hbefore (.list (Items.ofList cs none)) rfl
      simpa [Atom.tokens, Atom.expr, Items.tokens_ofList, Items.exprs_ofList] using hreads
    · have hreads := reads_stepOperand (Opened.list cs hopened hbefore) Before.none h
      rwa [List.append_nil] at hreads
  | key es hopened hbefore =>
    simp only [Reader.step] at h
    split at h
    · next ht =>
      cases h
      rw [ht]
      have hreads := reads_atom hopened hbefore (.map (Entries.ofList es none)) rfl
      simpa [Atom.tokens, Atom.expr, Entries.tokens_ofList, Entries.pairs_ofList] using hreads
    · obtain ⟨s, hs, rfl⟩ := Option.map_eq_some_iff.mp h
      obtain ⟨k, rfl, rfl⟩ := exists_key hs
      have hreads := Reads.colon es k hopened hbefore
      simpa using hreads
  | colon es k hopened hbefore =>
    simp only [Reader.step] at h
    split at h
    · next ht =>
      cases h
      rw [ht]
      have hreads := Reads.operand (Opened.map es k hopened hbefore) Before.none
      simpa using hreads
    · cases h

theorem Reads.finish {r : Reader} {ts : List Token} {e : Expr} (hreads : Reads r ts) (h : r.finish = some e) :
    ∃ c : Chain, c.tokens = ts ∧ c.expr = e := by
  cases hreads with
  | operator c hopened =>
    cases hopened with
    | nil => exact ⟨c, rfl, Option.some.inj h⟩
    | _ => cases h
  | name first ws hopened hbefore =>
    cases hopened with
    | nil =>
      obtain ⟨c, hc, he⟩ := hbefore.atom (.name first ws)
      refine ⟨c, hc, he.trans ?_⟩
      simpa [Reader.finish, Atom.expr] using h
    | _ => cases h
  | operand hopened _ => cases hopened <;> cases h
  | negated hopened _ => cases hopened <;> cases h
  | segment _ _ hopened _ => cases hopened <;> cases h
  | item _ hopened _ => cases hopened <;> cases h
  | key _ hopened _ => cases hopened <;> cases h
  | colon _ _ hopened _ => cases hopened <;> cases h

end Reader

/-- The reader accepts the tokens of the chains and nothing else, and gives the expression of the chain. -/
theorem ofTokens_eq_ok_iff {ts : List Token} {e : Expr} :
    ofTokens ts = .ok e ↔ ∃ c : Chain, c.tokens = ts ∧ c.expr = e := by
  rw [ofTokens, TokenReader.read, reader.readFrom_eq_ok_iff]
  constructor
  · rintro ⟨r, hrun, hfinish⟩
    exact (reader.invariant_of_run Reader.Reads.step Reader.reads_start hrun).finish hfinish
  · rintro ⟨c, rfl, rfl⟩
    obtain ⟨r, hrun, hdone⟩ := Reader.run_start c
    exact ⟨r, hrun, hdone.finish⟩

end Expr

end Inclusion
