import Inclusion.Proofs.Grammar.Parse
/-!
# The tokens that a sentence can begin with

The readers accept exactly the tokens of an expression and those of a directive, and no state of a reader is a dead end:
what is begun can be finished with a few tokens, and the open brackets be closed from the innermost to the outermost
(`exists_finish`). So the viable tokens are those that the readers have steps for, and a reader stops at the first token
that leaves them.
-/

namespace Inclusion

open Grammar

namespace Grammar

/-- The tokens are a directive with the tag. -/
def IsDirective (tag : String) (ts : List Token) : Prop :=
  ∃ s : Sentence, s.tokens tag = ts

/-- The tokens are an expression. -/
def IsExpr (ts : List Token) : Prop :=
  ∃ c : Chain, c.tokens = ts

end Grammar

/-! ### Expressions -/

namespace Expr

namespace Reader

/-- What a reader is in the middle of can be finished. -/
theorem exists_done (r : Reader) : ∃ ts e r', reader.run r ts = some r' ∧ Done e r.stack r' := by
  obtain ⟨focus, stack⟩ := r
  cases focus with
  | operand left => exact ⟨[.null], _, _, rfl, .operator⟩
  | negated left => exact ⟨[.integer 0], _, _, rfl, .operator⟩
  | segment left path => exact ⟨[.clause .only], _, _, rfl, .name left ("only" :: path) rfl⟩
  | name left path => exact ⟨[], _, _, rfl, .name left path rfl⟩
  | operator e => exact ⟨[], _, _, rfl, .operator⟩
  | item left items => exact ⟨[.bracketClose], _, _, rfl, .operator⟩
  | key left entries => exact ⟨[.braceClose], _, _, rfl, .operator⟩
  | colon left entries k => exact ⟨[.colon, .null, .braceClose], _, _, rfl, .operator⟩

/-- The open brackets can be closed, the innermost one first. -/
theorem exists_closed {e : Expr} {stack : List Frame} {r : Reader} (h : Done e stack r) :
    ∃ ts e' r', reader.run r ts = some r' ∧ Done e' [] r' := by
  induction stack generalizing e r with
  | nil => exact ⟨[], e, r, rfl, h⟩
  | cons frame stack ih =>
    obtain ⟨t, e₁, hdot, hstep⟩ : ∃ t e₁, t ≠ .dot ∧ stepOperator e (frame :: stack) t = some ⟨.operator e₁, stack⟩ := by
      cases frame with
      | paren left => exact ⟨.parenClose, _, by decide, rfl⟩
      | list left items => exact ⟨.bracketClose, _, by decide, rfl⟩
      | map left entries key => exact ⟨.braceClose, _, by decide, rfl⟩
    obtain ⟨ts, e', r', hrun, hdone⟩ := ih (e := e₁) .operator
    exact ⟨t :: ts, e', r', (reader.run_cons_of_step ((h.step hdot).trans hstep) ts).trans hrun, hdone⟩

/-- From every state a reader can come to the end of an expression. -/
theorem exists_finish (r : Reader) : ∃ ts e r', reader.run r ts = some r' ∧ Done e [] r' := by
  obtain ⟨ts, e, r₁, hrun, hdone⟩ := r.exists_done
  obtain ⟨us, e', r', hrun', hdone'⟩ := exists_closed hdone
  exact ⟨ts ++ us, e', r', (reader.run_append_of_run hrun us).trans hrun', hdone'⟩

end Reader

theorem recognizes : reader.Recognizes IsExpr where
  mem_iff := TokenReader.exists_read_iff ofTokens_eq_ok_iff
  exists_finish r := by
    obtain ⟨ts, e, r', hrun, hdone⟩ := r.exists_finish
    exact ⟨ts, r', e, hrun, hdone.finish⟩

end Expr

/-! ### Directives -/

namespace Directive

namespace Phase

variable {tag : String}

/-- Some tokens lead from the phase, after `n` others, to the end of a directive. -/
def CanFinish (tag : String) (n : Nat) (p : Phase) : Prop :=
  ∃ ts s o, (reader tag).run (n, p) ts = some s ∧ (reader tag).finish s = some o

theorem CanFinish.of_run {n n' : Nat} {p p' : Phase} {ts : List Token} (hrun : (reader tag).run (n, p) ts = some (n', p'))
    (h : CanFinish tag n' p') : CanFinish tag n p := by
  obtain ⟨us, s, o, hrun', hfinish⟩ := h
  exact ⟨ts ++ us, s, o, ((reader tag).run_append_of_run hrun us).trans hrun', hfinish⟩

theorem CanFinish.of_step {n : Nat} {p p' : Phase} {t : Token} (hstep : p.step tag n t = some p')
    (h : CanFinish tag (n + 1) p') : CanFinish tag n p :=
  .of_run ((reader tag).run_cons_of_step (step_reader hstep) []) h

theorem canFinish_closed (n : Nat) (o : Outline) : CanFinish tag n (.closed o) :=
  ⟨[], _, o, rfl, rfl⟩

/-- The directive can end here, or be closed. -/
theorem canFinish_of_ends {n : Nat} {p : Phase} {o : Outline}
    (h : p.finish n = some o ∨ p.step tag n .blockClose = some (.closed o)) : CanFinish tag n p := by
  cases h with
  | inl hfinish => exact ⟨[], _, o, rfl, hfinish⟩
  | inr hclose => exact .of_step hclose (canFinish_closed _ o)

theorem canFinish_between (n : Nat) (block : Bool) (o : Outline) (last : Clauses) :
    CanFinish tag n (.between block o last) := by
  apply canFinish_of_ends
  cases block with
  | false => exact .inl rfl
  | true => cases last <;> exact .inr rfl

theorem canFinish_component (n : Nat) (block : Bool) (first : Nat) (r : Expr.Reader) :
    CanFinish tag n (.component block first r) := by
  obtain ⟨ts, e, r', hrun, hdone⟩ := r.exists_finish
  refine .of_run (run_component hrun n) (canFinish_of_ends (o := Directive.outline e first (n + ts.length)) ?_)
  cases block with
  | false => exact .inl (congrArg (Option.map _) hdone.finish)
  | true =>
    right
    rw [step, step_eq_none hdone (by decide) (by decide), hdone.finish]
    rfl

theorem canFinish_vars (n : Nat) (block : Bool) (o : Outline) (first : Nat) (r : Expr.Reader) :
    CanFinish tag n (.vars block o first r) := by
  obtain ⟨ts, e, r', hrun, hdone⟩ := r.exists_finish
  refine .of_run (run_vars hrun n) (canFinish_of_ends (o := { o with vars := some (e, first, n + ts.length) }) ?_)
  cases block with
  | false => exact .inl (congrArg (Option.map _) hdone.finish)
  | true =>
    right
    rw [step, step_eq_none hdone (by decide) (by decide), hdone.finish]
    rfl

/-- From every phase a reader can come to the end of a directive. -/
theorem canFinish (tag : String) (n : Nat) (p : Phase) : CanFinish tag n p := by
  cases p with
  | start =>
    have htag : step tag n .start (.ident tag) = some (.component false (n + 1) .start) := by simp [step]
    exact .of_step htag (canFinish_component _ _ _ _)
  | opened =>
    have htag : step tag n .opened (.ident tag) = some (.component true (n + 1) .start) := by simp [step]
    exact .of_step htag (canFinish_component _ _ _ _)
  | component block first r => exact canFinish_component n block first r
  | ignoring block o =>
    have hmissing : step tag n (.ignoring block o) (.clause .missing) = some _ := rfl
    exact .of_step hmissing (canFinish_between _ _ _ _)
  | between block o last => exact canFinish_between n block o last
  | vars block o first r => exact canFinish_vars n block o first r
  | closed o => exact canFinish_closed n o

end Phase

theorem recognizes (tag : String) : (reader tag).Recognizes (IsDirective tag) where
  mem_iff := TokenReader.exists_read_iff ofTokens_eq_ok_iff
  exists_finish s := Phase.canFinish tag s.1 s.2

end Directive

end Inclusion
