import Inclusion.Proofs.Directive.Fault
/-!
# What could have stood there

A fault at a token lists what could have stood in its place. An entry of the list is the name of a token or the label
of a kind of tokens (`Covers`), and the list is complete and says nothing false: the tokens that it covers are exactly
those that can follow the tokens before the fault, and the end of the input is listed exactly when these are complete
(`Foretells`). The list is read off the state in which the reader stops (`Announces`), and no look at the stack of open
brackets beyond the innermost one is needed. After a dot and after a minus the list is empty, because the reader has no
name for what must follow there.
-/

namespace Inclusion

open Grammar

/-! ### The tokens that an entry covers -/

/-- The labels of the kinds of tokens that the token belongs to. -/
def Token.labels : Token → List String
  | string _ => ["literal", "map key"]
  | integer _ | float _ | minus | bool _ | null => ["literal"]
  | ident _ | clause _ => ["variable", "map key"]
  | _ => []

/-- The entry of a list of expectations is the name of the token or a label for it. -/
def Covers (entry : String) (t : Token) : Prop :=
  entry = t.describe ∨ entry ∈ t.labels

instance (entry : String) (t : Token) : Decidable (Covers entry t) :=
  inferInstanceAs (Decidable (_ ∨ _))

namespace Token

/-- The sign that the name of the token begins with: a quote for a symbol, a letter for the other kinds of tokens. -/
def sign : Token → Char
  | clause _ | bool _ | null => 'k'
  | ident _ => 'i'
  | string _ => 's'
  | integer _ | float _ => 'n'
  | _ => '\''

theorem head?_describe (t : Token) : t.describe.toList.head? = some t.sign := by
  cases t with
  | clause c => cases c <;> rfl
  | bool b => cases b <;> rfl
  | ident name => simp [describe, sign]
  | string s => simp [describe, sign]
  | integer n => simp [describe, sign]
  | float x => simp [describe, sign]
  | _ => rfl

/-- No label is the name of a token. -/
theorem describe_ne_label (t : Token) : t.describe ≠ "literal" ∧ t.describe ≠ "variable" ∧ t.describe ≠ "map key" ∧
    t.describe ≠ "end of input" := by
  have hne {label : String} (h : label.toList.head? ≠ some t.sign) : t.describe ≠ label := by
    rintro rfl
    exact h t.head?_describe
  refine ⟨hne ?_, hne ?_, hne ?_, hne ?_⟩ <;> cases t <;> simp [sign]

theorem describe_notMem_labels (u t : Token) : u.describe ∉ t.labels := by
  obtain ⟨hliteral, hvariable, hkey, -⟩ := u.describe_ne_label
  cases t <;> simp [labels, hliteral, hvariable, hkey]

/-- Only numbers share their names with other tokens. -/
theorem eq_of_describe {t u : Token} (hu : u.sign ≠ 'n') (h : u.describe = t.describe) : t = u := by
  have hsign : u.sign = t.sign := by
    have := congrArg (fun s => s.toList.head?) h
    simpa only [head?_describe, Option.some.injEq] using this
  -- Tokens of different signs are out, and the symbols differ in their names.
  cases u <;> cases t <;> first | (simp [sign] at hsign; done) | rfl | (exact absurd h (by decide)) | skip
  case clause.clause c d => cases c <;> cases d <;> first | rfl | exact absurd h (by decide)
  case clause.bool c b => cases c <;> cases b <;> exact absurd h (by decide)
  case clause.null c => cases c <;> exact absurd h (by decide)
  case bool.clause b c => cases c <;> cases b <;> exact absurd h (by decide)
  case bool.bool b b' => cases b <;> cases b' <;> first | rfl | exact absurd h (by decide)
  case bool.null b => cases b <;> exact absurd h (by decide)
  case null.clause c => cases c <;> exact absurd h (by decide)
  case null.bool b => cases b <;> exact absurd h (by decide)
  case ident.ident name other => simpa [describe] using h.symm
  case string.string s other => simpa [describe] using h.symm
  all_goals exact absurd rfl hu

end Token

namespace Expectation

/-- The tokens that can come where the expectation is one of those that are listed. -/
def Admits (t : Token) : Expectation → Prop
  | literal => (Expr.literal? t).isSome ∨ t = .minus
  | variable_ => t.word?.isSome
  | mapKey => (Expr.key? t).isSome
  | endOfInput => False
  | token u => t = u

/-- No number is expected by its name. -/
def Named : Expectation → Prop
  | token u => u.sign ≠ 'n'
  | _ => True

theorem covers_describe_iff {x : Expectation} (hx : x.Named) (t : Token) : Covers x.describe t ↔ x.Admits t := by
  obtain ⟨hliteral, hvariable, hkey, hend⟩ := t.describe_ne_label
  cases x with
  | token u =>
    constructor
    · rintro (h | h)
      · exact Token.eq_of_describe hx h
      · exact absurd h (u.describe_notMem_labels t)
    · rintro rfl
      exact .inl rfl
  | literal =>
    rw [Covers, describe, or_iff_right hliteral.symm]
    cases t <;> simp [Token.labels, Admits, Expr.literal?]
  | variable_ =>
    rw [Covers, describe, or_iff_right hvariable.symm]
    cases t <;> simp [Token.labels, Admits, Token.word?]
  | mapKey =>
    rw [Covers, describe, or_iff_right hkey.symm]
    cases t <;> simp [Token.labels, Admits, Expr.key?, Token.word?]
  | endOfInput =>
    rw [Covers, describe, or_iff_right hend.symm]
    cases t <;> simp [Token.labels, Admits]

end Expectation

/-! ### The state in which a reader stops -/

namespace Expr

namespace Reader

/-- After a dot or a minus, where nothing is named. -/
def Mute (r : Reader) : Prop :=
  match r.focus with
  | .negated _ | .segment _ _ => True
  | _ => False

theorem expected_of_mute {r : Reader} (h : r.Mute) : r.expected = [] ∧ r.finish = none := by
  obtain ⟨focus, stack⟩ := r
  cases focus <;> first | exact h.elim | cases stack <;> exact ⟨rfl, rfl⟩

theorem isSome_stepOperand_iff (left : Option Expr) (stack : List Frame) (t : Token) :
    (stepOperand left stack t).isSome ↔ ∃ x ∈ operandExpected, x.Admits t := by
  simp only [operandExpected, List.mem_cons, List.not_mem_nil, or_false, exists_eq_or_imp, exists_eq_left, Expectation.Admits]
  cases t <;> simp [stepOperand, literal?, Token.word?]

theorem isSome_stepOperator_iff (e : Expr) (stack : List Frame) (t : Token) :
    (stepOperator e stack t).isSome ↔ ∃ x ∈ operatorExpected stack, x.Admits t := by
  cases stack with
  | nil => cases t <;> simp [stepOperator, operatorExpected, Expectation.Admits]
  | cons frame rest => cases frame <;> cases t <;> simp [stepOperator, operatorExpected, Expectation.Admits]

/-- The reader has a step for exactly those tokens that it expects. -/
theorem isSome_step_iff {r : Reader} (h : ¬ r.Mute) (t : Token) :
    (r.step t).isSome ↔ ∃ x ∈ r.expected, x.Admits t := by
  obtain ⟨focus, stack⟩ := r
  cases focus with
  | operand left => exact isSome_stepOperand_iff left stack t
  | negated left => exact absurd trivial h
  | segment left path => exact absurd trivial h
  | name left path =>
    simp only [step, expected, List.mem_cons, exists_eq_or_imp]
    rw [← isSome_stepOperator_iff (join left (.name path.reverse))]
    by_cases ht : t = .dot <;> simp [ht, Expectation.Admits]
  | operator e => exact isSome_stepOperator_iff e stack t
  | item left items =>
    simp only [step, expected, List.mem_append, List.mem_singleton, or_and_right, exists_or, exists_eq_left]
    rw [← isSome_stepOperand_iff none (.list left items :: stack)]
    by_cases ht : t = .bracketClose <;> simp [ht, Expectation.Admits]
  | key left entries =>
    simp only [step, expected]
    by_cases ht : t = .braceClose <;> simp [ht, Expectation.Admits]
  | colon left entries k =>
    simp only [step, expected]
    by_cases ht : t = .colon <;> simp [ht, Expectation.Admits]

theorem named_of_mem_expected (r : Reader) : ∀ x ∈ r.expected, x.Named ∧ x ≠ .endOfInput := by
  have hoperand : ∀ x ∈ operandExpected, x.Named ∧ x ≠ .endOfInput := by
    simp [operandExpected, Expectation.Named, Token.sign]
  have hoperator (stack : List Frame) : ∀ x ∈ operatorExpected stack, x.Named ∧ x ≠ .endOfInput := by
    cases stack with
    | nil => simp [operatorExpected, Expectation.Named, Token.sign]
    | cons frame rest => cases frame <;> simp [operatorExpected, Expectation.Named, Token.sign]
  obtain ⟨focus, stack⟩ := r
  cases focus with
  | operand left => exact hoperand
  | name left path => exact List.forall_mem_cons.mpr ⟨by simp [Expectation.Named, Token.sign], hoperator stack⟩
  | operator e => exact hoperator stack
  | item left items => exact List.forall_mem_append.mpr ⟨hoperand, by simp [Expectation.Named, Token.sign]⟩
  | _ => simp [expected, Expectation.Named, Token.sign]

theorem not_mute_of_stepOperator {e : Expr} {stack : List Frame} {t : Token} {r : Reader}
    (h : stepOperator e stack t = some r) : ¬ r.Mute ∧ t ≠ .dot ∧ t ≠ .minus := by
  unfold stepOperator at h
  split at h <;> cases h <;> simp [Mute]

theorem mute_stepOperand_iff {left : Option Expr} {stack : List Frame} {t : Token} {r : Reader}
    (h : stepOperand left stack t = some r) : r.Mute ↔ t = .dot ∨ t = .minus := by
  cases t <;> simp [stepOperand, literal?, Token.word?] at h <;> subst h <;> simp [Mute]

/-- Nothing is named after a step over a dot or a minus, and after no other. -/
theorem mute_step_iff {r r' : Reader} {t : Token} (h : r.step t = some r') : r'.Mute ↔ t = .dot ∨ t = .minus := by
  have hoperator {e : Expr} {stack : List Frame} (h : stepOperator e stack t = some r') :
      r'.Mute ↔ t = .dot ∨ t = .minus := by
    obtain ⟨hmute, hdot, hminus⟩ := not_mute_of_stepOperator h
    simp [hmute, hdot, hminus]
  obtain ⟨focus, stack⟩ := r
  cases focus with
  | operand left => exact mute_stepOperand_iff h
  | negated left =>
    obtain ⟨s, hs, rfl⟩ := Option.map_eq_some_iff.mp h
    cases t <;> simp [negated?] at hs <;> simp [Mute]
  | segment left path =>
    obtain ⟨w, hw, rfl⟩ := Option.map_eq_some_iff.mp h
    cases t <;> simp [Token.word?] at hw <;> simp [Mute]
  | name left path =>
    simp only [step] at h
    split at h
    · next ht =>
      cases h
      simp [Mute, ht]
    · exact hoperator h
  | operator e => exact hoperator h
  | item left items =>
    simp only [step] at h
    split at h
    · next ht =>
      cases h
      simp [Mute, ht]
    · exact mute_stepOperand_iff h
  | key left entries =>
    simp only [step] at h
    split at h
    · next ht =>
      cases h
      simp [Mute, ht]
    · obtain ⟨k, hk, rfl⟩ := Option.map_eq_some_iff.mp h
      cases t <;> simp [key?, Token.word?] at hk <;> simp [Mute]
  | colon left entries k =>
    simp only [step] at h
    split at h
    · next ht =>
      cases h
      simp [Mute, ht]
    · cases h

end Reader

end Expr

/-! ### The phase in which a reader stops -/

namespace Directive

theorem isSome_stepClause_iff (n : Nat) (block : Bool) (o : Outline) (last : Clauses) (t : Token) :
    (stepClause n block o last t).isSome ↔ ∃ x ∈ clauseExpected block last, x.Admits t := by
  cases t with
  | clause c => cases c <;> cases last <;> cases block <;> simp [stepClause, clauseExpected, Expectation.Admits]
  | _ => cases last <;> cases block <;> simp [stepClause, clauseExpected, Expectation.Admits]

theorem named_of_mem_clauseExpected (block : Bool) (last : Clauses) : ∀ x ∈ clauseExpected block last, x.Named := by
  cases last <;> cases block <;> simp [clauseExpected, Expectation.Named, Token.sign]

theorem endOfInput_mem_clauseExpected_iff (block : Bool) (last : Clauses) :
    .endOfInput ∈ clauseExpected block last ↔ block = false := by
  cases last <;> cases block <;> simp [clauseExpected]

namespace Phase

variable {tag : String}

/-- In an expression after a dot or a minus, where nothing is named. -/
def Mute : Phase → Prop
  | component _ _ r => r.Mute
  | vars _ _ _ r => r.Mute
  | _ => False

theorem expected_of_mute {p : Phase} (h : p.Mute) : p.expected tag = [] := by
  cases p with
  | component block first r =>
    obtain ⟨hexpected, hfinish⟩ := Expr.Reader.expected_of_mute h
    rw [expected, hexpected, hfinish]
    rfl
  | vars block o first r =>
    obtain ⟨hexpected, hfinish⟩ := Expr.Reader.expected_of_mute h
    rw [expected, hexpected, hfinish]
    rfl
  | _ => exact h.elim

/-- In an expression, a token continues the expression or, if that is complete, begins a clause. -/
theorem isSome_stepExpr_iff {r : Expr.Reader} (h : ¬ r.Mute) {t : Token} (phase : Expr.Reader → Phase)
    {clause : Expr → Option Phase} {xs : List Expectation}
    (hclause : ∀ e, (clause e).isSome ↔ ∃ x ∈ xs, x.Admits t) :
    (match r.step t with
      | some r' => some (phase r')
      | none => r.finish.bind clause).isSome ↔
      ∃ x ∈ r.expected ++ if r.finish.isSome then xs else [], x.Admits t := by
  have hstep := Expr.Reader.isSome_step_iff h t
  simp only [List.mem_append, or_and_right, exists_or]
  cases hr : r.step t with
  | some r' =>
    rw [hr] at hstep
    exact iff_of_true rfl (.inl (hstep.mp rfl))
  | none =>
    rw [hr] at hstep
    rw [← hstep, Option.isSome_none, or_iff_right Bool.false_ne_true]
    cases r.finish with
    | none => simp
    | some e => exact hclause e

/-- The reader has a step for exactly those tokens that it expects. -/
theorem isSome_step_iff {p : Phase} (h : ¬ p.Mute) (n : Nat) (t : Token) :
    (p.step tag n t).isSome ↔ ∃ x ∈ p.expected tag, x.Admits t := by
  cases p with
  | start =>
    simp only [step, expected, List.mem_cons, List.not_mem_nil, or_false, exists_eq_or_imp, exists_eq_left]
    by_cases hopen : t = .blockOpen
    · simp [hopen, Expectation.Admits]
    · by_cases htag : t = .ident tag <;> simp [hopen, htag, Expectation.Admits]
  | opened => by_cases htag : t = .ident tag <;> simp [step, expected, htag, Expectation.Admits]
  | component block first r => exact isSome_stepExpr_iff h _ fun e => isSome_stepClause_iff n block _ _ t
  | ignoring block o => by_cases hmissing : t = .clause .missing <;> simp [step, expected, hmissing, Expectation.Admits]
  | between block o last => exact isSome_stepClause_iff n block o last t
  | vars block o first r => exact isSome_stepExpr_iff h _ fun e => isSome_stepClause_iff n block _ _ t
  | closed o => simp [step, expected, Expectation.Admits]

theorem named_of_mem_expected (tag : String) (p : Phase) : ∀ x ∈ p.expected tag, x.Named := by
  have hexpr (r : Expr.Reader) (block : Bool) (last : Clauses) :
      ∀ x ∈ r.expected ++ if r.finish.isSome then clauseExpected block last else [], x.Named := by
    refine List.forall_mem_append.mpr ⟨fun x hx => (r.named_of_mem_expected x hx).1, ?_⟩
    split
    · exact named_of_mem_clauseExpected block last
    · simp
  cases p with
  | component block first r => exact hexpr r block .none
  | between block o last => exact named_of_mem_clauseExpected block last
  | vars block o first r => exact hexpr r block .vars
  | _ => simp [expected, Expectation.Named, Token.sign]

/-- The end of the input is expected where the directive can end. -/
theorem endOfInput_mem_expected_iff (p : Phase) (n : Nat) : .endOfInput ∈ p.expected tag ↔ (p.finish n).isSome := by
  have hexpr (r : Expr.Reader) (block : Bool) (last : Clauses) :
      .endOfInput ∈ (r.expected ++ if r.finish.isSome then clauseExpected block last else []) ↔
        block = false ∧ r.finish.isSome := by
    rw [List.mem_append, or_iff_right fun hx => (r.named_of_mem_expected _ hx).2 rfl]
    cases r.finish with
    | none => simp
    | some e => simp [endOfInput_mem_clauseExpected_iff]
  cases p with
  | component block first r =>
    rw [expected, hexpr]
    cases block <;> simp [finish]
  | between block o last =>
    rw [expected, endOfInput_mem_clauseExpected_iff]
    cases block <;> simp [finish]
  | vars block o first r =>
    rw [expected, hexpr]
    cases block <;> simp [finish]
  | _ => simp [expected, finish]

theorem not_mute_of_stepClause {n : Nat} {block : Bool} {o : Outline} {last : Clauses} {t : Token} {p : Phase}
    (h : stepClause n block o last t = some p) : ¬ p.Mute ∧ t ≠ .dot ∧ t ≠ .minus := by
  unfold stepClause at h
  split at h
  case h_7 =>
    split at h <;> cases h
    simp [Mute]
  all_goals cases h <;> simp [Mute, Expr.Reader.Mute, Expr.Reader.start]

/-- Nothing is named after a step over a dot or a minus, and after no other. -/
theorem mute_step_iff {p p' : Phase} {n : Nat} {t : Token} (h : p.step tag n t = some p') :
    p'.Mute ↔ t = .dot ∨ t = .minus := by
  have hclause {block : Bool} {o : Outline} {last : Clauses} (h : stepClause n block o last t = some p') :
      p'.Mute ↔ t = .dot ∨ t = .minus := by
    obtain ⟨hmute, hdot, hminus⟩ := not_mute_of_stepClause h
    simp [hmute, hdot, hminus]
  cases p with
  | start =>
    simp only [step] at h
    split at h
    · next ht =>
      cases h
      simp [Mute, ht]
    · split at h
      · next ht =>
        cases h
        simp [Mute, Expr.Reader.Mute, Expr.Reader.start, ht]
      · cases h
  | opened =>
    simp only [step] at h
    split at h
    · next ht =>
      cases h
      simp [Mute, Expr.Reader.Mute, Expr.Reader.start, ht]
    · cases h
  | component block first r =>
    simp only [step] at h
    split at h
    · next hstep =>
      cases h
      exact Expr.Reader.mute_step_iff hstep
    · obtain ⟨e, -, h⟩ := Option.bind_eq_some_iff.mp h
      exact hclause h
  | ignoring block o =>
    simp only [step] at h
    split at h
    · next ht =>
      cases h
      simp [Mute, ht]
    · cases h
  | between block o last => exact hclause h
  | vars block o first r =>
    simp only [step] at h
    split at h
    · next hstep =>
      cases h
      exact Expr.Reader.mute_step_iff hstep
    · obtain ⟨e, -, h⟩ := Option.bind_eq_some_iff.mp h
      exact hclause h
  | closed o => cases h

end Phase

end Directive

/-! ### What can follow some tokens -/

/-- Nothing is named after the last of the tokens. -/
def EndsMute (ts : List Token) : Prop :=
  ts.getLast? = some .dot ∨ ts.getLast? = some .minus

/-- The entries say what can come after the tokens. -/
structure Foretells (language : List Token → Prop) (ts : List Token) (entries : List String) : Prop where
  covered : ¬ EndsMute ts → ∀ t, Viable language (ts ++ [t]) ↔ ∃ entry ∈ entries, Covers entry t
  ended : "end of input" ∈ entries ↔ language ts
  mute : EndsMute ts → entries = []

theorem foretells_map_describe {language : List Token → Prop} {ts : List Token} {xs : List Expectation}
    (hnamed : ∀ x ∈ xs, x.Named)
    (hcovered : ¬ EndsMute ts → ∀ t, Viable language (ts ++ [t]) ↔ ∃ x ∈ xs, x.Admits t)
    (hended : .endOfInput ∈ xs ↔ language ts) (hmute : EndsMute ts → xs = []) :
    Foretells language ts (xs.map Expectation.describe) where
  covered h t := by
    rw [hcovered h t]
    constructor
    · rintro ⟨x, hx, hadmits⟩
      exact ⟨x.describe, List.mem_map_of_mem hx, (Expectation.covers_describe_iff (hnamed x hx) t).mpr hadmits⟩
    · rintro ⟨entry, hentry, hcovers⟩
      obtain ⟨x, hx, rfl⟩ := List.mem_map.mp hentry
      exact ⟨x, hx, (Expectation.covers_describe_iff (hnamed x hx) t).mp hcovers⟩
  ended := by
    rw [← hended, List.mem_map]
    constructor
    · rintro ⟨x, hx, hdescribe⟩
      cases x with
      | endOfInput => exact hx
      | token u => exact absurd hdescribe u.describe_ne_label.2.2.2
      | _ => exact absurd hdescribe (by decide)
    · intro h
      exact ⟨_, h, rfl⟩
  mute h := by rw [hmute h, List.map_nil]

namespace TokenReader

variable {σ α : Type} {reader : TokenReader σ α} {mute : σ → Prop} {language : List Token → Prop} {s : σ}
  {ts : List Token}

/-- In each of its states, apart from the mute ones, the reader expects what it has a step for, and the end of the input
where it can end. The mute states are those after a dot and after a minus. -/
structure Announces (reader : TokenReader σ α) (mute : σ → Prop) : Prop where
  named : ∀ s, ∀ x ∈ reader.expected s, x.Named
  endOfInput_mem_iff : ∀ s, .endOfInput ∈ reader.expected s ↔ (reader.finish s).isSome
  isSome_step_iff : ∀ s, ¬ mute s → ∀ t, (reader.step s t).isSome ↔ ∃ x ∈ reader.expected s, x.Admits t
  expected_of_mute : ∀ s, mute s → reader.expected s = []
  not_mute_start : ¬ mute reader.start
  mute_step_iff : ∀ {s s' t}, reader.step s t = some s' → (mute s' ↔ t = .dot ∨ t = .minus)

namespace Announces

theorem mute_run_iff (h : reader.Announces mute) (hrun : reader.run reader.start ts = some s) : mute s ↔ EndsMute ts := by
  obtain rfl | ⟨init, t, rfl⟩ := List.eq_nil_or_concat ts
  · cases hrun
    simp [EndsMute, h.not_mute_start]
  · rw [List.concat_eq_append] at hrun ⊢
    obtain ⟨between, hinit⟩ := reader.exists_run_of_append hrun
    rw [reader.run_append_of_run hinit, run_cons] at hrun
    obtain ⟨s', hstep, hlast⟩ := Option.bind_eq_some_iff.mp hrun
    cases hlast
    simpa [EndsMute] using h.mute_step_iff hstep

/-- The list of the state in which the reader stops says what can come after the tokens before that place. -/
theorem foretells (h : reader.Announces mute) (hlanguage : reader.Recognizes language) {stop : Stop}
    (hread : reader.read ts = .error stop) :
    Foretells language (ts.take stop.index) (stop.expected.map Expectation.describe) := by
  obtain ⟨k, s, hindex, -, hrun, -, hexpected⟩ := reader.exists_of_readFrom_error hread
  obtain rfl : stop.index = k := hindex.trans (Nat.zero_add k)
  rw [hexpected]
  refine foretells_map_describe (h.named s) ?_ ?_ ?_
  · intro hmute t
    rw [hlanguage.viable_concat_iff hrun, h.isSome_step_iff s (mt (h.mute_run_iff hrun).mp hmute)]
  · rw [hlanguage.mem_iff_of_run hrun, h.endOfInput_mem_iff]
  · intro hmute
    exact h.expected_of_mute s ((h.mute_run_iff hrun).mpr hmute)

end Announces

end TokenReader

/-! ### The two readers -/

theorem Expr.reader_announces : reader.Announces Reader.Mute where
  named r := by
    refine List.forall_mem_append.mpr ⟨fun x hx => (r.named_of_mem_expected x hx).1, ?_⟩
    split <;> simp [Expectation.Named]
  endOfInput_mem_iff r := by
    simp only [reader]
    rw [List.mem_append, or_iff_right fun hx => (r.named_of_mem_expected _ hx).2 rfl]
    split <;> simp [*]
  isSome_step_iff r hmute t := by
    simp only [reader]
    rw [Reader.isSome_step_iff hmute]
    -- The end of the input, which is expected only here, admits no token.
    simp only [List.mem_append, or_and_right, exists_or]
    refine (or_iff_left ?_).symm
    split <;> simp [Expectation.Admits]
  expected_of_mute r hmute := by
    obtain ⟨hexpected, hfinish⟩ := Reader.expected_of_mute hmute
    simp [reader, hexpected, hfinish]
  not_mute_start := id
  mute_step_iff := Reader.mute_step_iff

theorem Directive.reader_announces (tag : String) : (reader tag).Announces fun s => s.2.Mute where
  named s := s.2.named_of_mem_expected tag
  endOfInput_mem_iff s := s.2.endOfInput_mem_expected_iff s.1
  isSome_step_iff s hmute t := by
    simp only [reader]
    rw [Option.isSome_map, Phase.isSome_step_iff hmute]
  expected_of_mute s := Phase.expected_of_mute
  not_mute_start := id
  mute_step_iff hstep := by
    obtain ⟨p, hp, rfl⟩ := Option.map_eq_some_iff.mp hstep
    exact Phase.mute_step_iff hp

/-! ### The list of a fault -/

theorem Directive.expected_faultOfStop (lexemes : List Lexeme) (stop : Nat) (s : Stop) :
    (faultOfStop lexemes stop s).expected = s.expected.map Expectation.describe := by
  rw [faultOfStop]
  split <;> rfl

/-- Where a text whose characters are accepted stops being the beginning of a directive, or of an expression, its fault
lists exactly what can come after the tokens before that place: the entries cover a token if and only if these tokens
are still viable together with it, and name the end of the input if and only if the tokens are complete. After a dot or
a minus the list is empty. -/
theorem expected_of_parse_error (tag : String) (offset : Nat) (text : String)
    (haccepted : Lexer.firstRejected 0 text.toList = none) :
    let tokens := Lexer.tokens text.toList
    (∀ f, Directive.parse tag offset text.toList = .error f → ∃ k, StopsAt (IsDirective tag) tokens k ∧
        Foretells (IsDirective tag) (tokens.take k) f.expected) ∧
      ∀ f, Expr.parse text = .error f → ∃ k, StopsAt IsExpr tokens k ∧ Foretells IsExpr (tokens.take k) f.expected := by
  intro tokens
  have hoffset := Lexer.firstRejected_of_zero haccepted offset
  refine ⟨fun f hf => ?_, fun f hf => ?_⟩
  · obtain ⟨s, hs, rfl⟩ := Directive.exists_stop_of_parse hoffset hf
    rw [Directive.expected_faultOfStop]
    exact ⟨s.index, (Directive.recognizes tag).stopsAt hs,
      (Directive.reader_announces tag).foretells (Directive.recognizes tag) hs⟩
  · obtain ⟨s, hs, rfl⟩ := Expr.exists_stop_of_parse haccepted hf
    rw [Directive.expected_faultOfStop]
    exact ⟨s.index, Expr.recognizes.stopsAt hs, Expr.reader_announces.foretells Expr.recognizes hs⟩

/-- In `{% render "@card" with {a: 1, ] %}` a bracket stands where a key or the end of the map is expected. -/
theorem expected_of_parse_error_card :
    let text := "\x7b% render \"@card\" with \x7ba: 1, ] %\x7d"
    let tokens := Lexer.tokens text.toList
    Lexer.firstRejected 0 text.toList = none ∧ ∃ f, Directive.parse "render" 0 text.toList = .error f ∧
      f.expected = ["map key", "'\x7d'"] ∧ ∃ k, StopsAt (IsDirective "render") tokens k ∧
        Foretells (IsDirective "render") (tokens.take k) f.expected := by
  intro text tokens
  have haccepted : Lexer.firstRejected 0 text.toList = none := by decide +kernel
  have hlexemes : Lexer.lexemes 0 text.toList = [⟨.blockOpen, ⟨0, 2⟩⟩, ⟨.ident "render", ⟨3, 9⟩⟩,
      ⟨.string "@card", ⟨10, 17⟩⟩, ⟨.clause .with_, ⟨18, 22⟩⟩, ⟨.braceOpen, ⟨23, 24⟩⟩, ⟨.ident "a", ⟨24, 25⟩⟩,
      ⟨.colon, ⟨25, 26⟩⟩, ⟨.integer 1, ⟨27, 28⟩⟩, ⟨.comma, ⟨28, 29⟩⟩, ⟨.bracketClose, ⟨30, 31⟩⟩,
      ⟨.blockClose, ⟨32, 34⟩⟩] := by decide +kernel
  have hparse : Directive.parse "render" 0 text.toList =
      .error ⟨.unexpected (some .bracketClose) [.mapKey, .token .braceClose], ⟨30, 31⟩⟩ := by
    rw [Directive.parse, Directive.scan_eq_ok haccepted hlexemes]
    rfl
  exact ⟨haccepted, _, hparse, rfl, (expected_of_parse_error "render" 0 text haccepted).1 _ hparse⟩

end Inclusion
