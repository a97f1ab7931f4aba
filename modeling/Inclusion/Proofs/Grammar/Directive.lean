import Inclusion.Proofs.Grammar.Expr
/-!
# The reader of directives accepts the sentences

The reader of a directive hands a token to the reader of an expression whenever that has a step for it, and only
else takes it for a clause. No such choice is wrong: once an expression is complete, the reader has a step for a
dot and a tilde alone, and no clause begins with either. So the tokens of a sentence are read clause by clause
(`Reaches`), each prefix of a sentence being a sentence without its last clauses; and what a phase has read is a
sentence, or a sentence and the beginning of its next clause (`Reads`).
-/

namespace Inclusion

open Grammar

/-! ### A sentence and its next clause -/

namespace Grammar

namespace Sentence

/-- The last clause that is there. -/
def last (s : Sentence) : Directive.Clauses :=
  if s.only then .only else if s.vars.isSome then .vars else if s.missing then .missing else .none

/-- A sentence without clauses. -/
def bare (block : Bool) (c : Chain) : Sentence :=
  ⟨block, c, false, none, false⟩

theorem openTokens_bare (tag : String) (block : Bool) (c : Chain) :
    (bare block c).openTokens tag = head tag block ++ c.tokens := by
  simp [bare, openTokens, missingTokens, varsTokens, onlyTokens]

theorem openTokens_missing (tag : String) (block : Bool) (c : Chain) :
    openTokens tag ⟨block, c, true, none, false⟩ = (bare block c).openTokens tag ++ [.clause .ignore, .clause .missing] := by
  simp [bare, openTokens, missingTokens, varsTokens, onlyTokens]

theorem openTokens_vars (tag : String) (block : Bool) (c : Chain) (missing : Bool) (d : Chain) :
    openTokens tag ⟨block, c, missing, some d, false⟩ =
      openTokens tag ⟨block, c, missing, none, false⟩ ++ .clause .with_ :: d.tokens := by
  simp [openTokens, varsTokens, onlyTokens]

theorem openTokens_only (tag : String) (block : Bool) (c : Chain) (missing : Bool) (vars : Option Chain) :
    openTokens tag ⟨block, c, missing, vars, true⟩ =
      openTokens tag ⟨block, c, missing, vars, false⟩ ++ [.clause .only] := by
  simp [openTokens, onlyTokens]

theorem outline_bare (tag : String) (block : Bool) (c : Chain) :
    (bare block c).outline tag =
      Directive.outline c.expr (head tag block).length ((bare block c).openTokens tag).length := by
  rw [openTokens_bare, List.length_append]
  rfl

theorem outline_vars (tag : String) (block : Bool) (c : Chain) (missing : Bool) (d : Chain) :
    outline tag ⟨block, c, missing, some d, false⟩ =
      { outline tag ⟨block, c, missing, none, false⟩ with
        vars := some (d.expr, (openTokens tag ⟨block, c, missing, none, false⟩).length + 1,
          (openTokens tag ⟨block, c, missing, some d, false⟩).length) } := by
  simp [outline, openTokens, varsTokens, onlyTokens, Nat.add_assoc, Nat.add_comm 1]

end Sentence

end Grammar

open Sentence

namespace Directive

namespace Phase

variable {tag : String}

theorem step_reader {n : Nat} {p p' : Phase} {t : Token} (h : p.step tag n t = some p') :
    (reader tag).step (n, p) t = some (n + 1, p') := by
  simp only [reader, h, Option.map_some]

/-! ### The tokens of a sentence -/

/-- In a phase that hands its tokens to a reader of expressions, the run is that of the reader. -/
theorem run_expr {phase : Expr.Reader → Phase}
    (hphase : ∀ n r t r', r.step t = some r' → (phase r).step tag n t = some (phase r')) {r r' : Expr.Reader}
    {ts : List Token} (h : Expr.reader.run r ts = some r') (n : Nat) :
    (reader tag).run (n, phase r) ts = some (n + ts.length, phase r') := by
  induction ts generalizing n r with
  | nil =>
    cases h
    rfl
  | cons t ts ih =>
    obtain ⟨r₁, hstep, hrun⟩ := Option.bind_eq_some_iff.mp h
    rw [(reader tag).run_cons_of_step (step_reader (hphase n r t r₁ hstep)), ih hrun, List.length_cons, Nat.add_assoc,
      Nat.add_comm 1]

theorem run_component {block : Bool} {first : Nat} {r r' : Expr.Reader} {ts : List Token}
    (h : Expr.reader.run r ts = some r') (n : Nat) :
    (reader tag).run (n, .component block first r) ts = some (n + ts.length, .component block first r') := by
  apply run_expr _ h n
  intro n r t r' hstep
  simp only [step, hstep]

theorem run_vars {block : Bool} {o : Outline} {first : Nat} {r r' : Expr.Reader} {ts : List Token}
    (h : Expr.reader.run r ts = some r') (n : Nat) :
    (reader tag).run (n, .vars block o first r) ts = some (n + ts.length, .vars block o first r') := by
  apply run_expr _ h n
  intro n r t r' hstep
  simp only [step, hstep]

/-- The phase has read the sentence, which could go on with a clause. -/
inductive Settled (tag : String) : Sentence → Phase → Prop
  | between (s : Sentence) : Settled tag s (.between s.block (s.outline tag) s.last)
  | component {block : Bool} {c : Chain} {r : Expr.Reader} (h : Expr.Reader.Done c.expr [] r) :
    Settled tag (bare block c) (.component block (head tag block).length r)
  | vars {block : Bool} {c : Chain} {missing : Bool} {d : Chain} {r : Expr.Reader} (h : Expr.Reader.Done d.expr [] r) :
    Settled tag ⟨block, c, missing, some d, false⟩
      (.vars block (Sentence.outline tag ⟨block, c, missing, none, false⟩)
        ((openTokens tag ⟨block, c, missing, none, false⟩).length + 1) r)

/-- After a complete expression, the reader has no step for what can begin a clause. -/
theorem step_eq_none {e : Expr} {r : Expr.Reader} (h : Expr.Reader.Done e [] r) {t : Token} (hdot : t ≠ .dot)
    (htilde : t ≠ .tilde) : r.step t = none := by
  rw [h.step hdot]
  cases t <;> first | rfl | exact absurd rfl htilde

theorem Settled.step {s : Sentence} {p : Phase} (h : Settled tag s p) {t : Token} (hdot : t ≠ .dot)
    (htilde : t ≠ .tilde) : p.step tag (s.openTokens tag).length t =
      stepClause (s.openTokens tag).length s.block (s.outline tag) s.last t := by
  cases h with
  | between => rfl
  | component h =>
    simp only [Phase.step, step_eq_none h hdot htilde, h.finish, Option.bind_some]
    rw [outline_bare]
    rfl
  | vars h =>
    simp only [Phase.step, step_eq_none h hdot htilde, h.finish, Option.bind_some]
    rw [outline_vars]
    rfl

theorem Settled.finish {s : Sentence} {p : Phase} (h : Settled tag s p) (hblock : s.block = false) :
    p.finish (s.openTokens tag).length = some (s.outline tag) := by
  cases h with
  | between =>
    rw [hblock]
    rfl
  | component h =>
    cases hblock
    rw [outline_bare, Phase.finish, h.finish, Option.map_some]
  | vars h =>
    cases hblock
    rw [outline_vars, Phase.finish, h.finish, Option.map_some]

/-- The tokens of the sentence are all read. -/
def Reaches (tag : String) (s : Sentence) : Prop :=
  ∃ p, (reader tag).run (0, .start) (s.openTokens tag) = some ((s.openTokens tag).length, p) ∧ Settled tag s p

/-- After the tokens of a sentence, a clause word begins a clause. -/
theorem Reaches.run_clause {s : Sentence} (h : Reaches tag s) {word : Clause} {p : Phase}
    (hclause : stepClause (s.openTokens tag).length s.block (s.outline tag) s.last (.clause word) = some p)
    (us : List Token) : (reader tag).run (0, .start) (s.openTokens tag ++ .clause word :: us) =
      (reader tag).run ((s.openTokens tag).length + 1, p) us := by
  obtain ⟨p₁, hrun, hsettled⟩ := h
  rw [(reader tag).run_append_of_run hrun, (reader tag).run_cons_of_step (step_reader ?_)]
  rwa [hsettled.step (by simp) (by simp)]

theorem reaches_bare (block : Bool) (c : Chain) : Reaches tag (bare block c) := by
  obtain ⟨r, hrun, hdone⟩ := Expr.Reader.run_start c
  refine ⟨_, ?_, .component hdone⟩
  have hhead : (reader tag).run (0, .start) (head tag block) =
      some ((head tag block).length, .component block (head tag block).length .start) := by
    cases block <;> simp [head, TokenReader.run, reader, step]
  rw [openTokens_bare, (reader tag).run_append_of_run hhead, run_component hrun, List.length_append]

theorem Reaches.missing {block : Bool} {c : Chain} (h : Reaches tag (bare block c)) :
    Reaches tag ⟨block, c, true, none, false⟩ := by
  refine ⟨_, ?_, .between _⟩
  rw [openTokens_missing, h.run_clause rfl, List.length_append]
  rfl

theorem Reaches.vars {block : Bool} {c : Chain} {missing : Bool} (h : Reaches tag ⟨block, c, missing, none, false⟩)
    (d : Chain) : Reaches tag ⟨block, c, missing, some d, false⟩ := by
  obtain ⟨r, hchain, hdone⟩ := Expr.Reader.run_start d
  refine ⟨_, ?_, .vars hdone⟩
  have hwith : stepClause (openTokens tag ⟨block, c, missing, none, false⟩).length block
      (Sentence.outline tag ⟨block, c, missing, none, false⟩) (last ⟨block, c, missing, none, false⟩) (.clause .with_) =
      some (.vars block (Sentence.outline tag ⟨block, c, missing, none, false⟩)
        ((openTokens tag ⟨block, c, missing, none, false⟩).length + 1) .start) := by
    cases missing <;> rfl
  rw [openTokens_vars, h.run_clause hwith, run_vars hchain, List.length_append, List.length_cons, Nat.add_assoc,
    Nat.add_comm 1]

theorem Reaches.only {block : Bool} {c : Chain} {missing : Bool} {vars : Option Chain}
    (h : Reaches tag ⟨block, c, missing, vars, false⟩) : Reaches tag ⟨block, c, missing, vars, true⟩ := by
  refine ⟨_, ?_, .between _⟩
  have honly : stepClause (openTokens tag ⟨block, c, missing, vars, false⟩).length block
      (Sentence.outline tag ⟨block, c, missing, vars, false⟩) (last ⟨block, c, missing, vars, false⟩) (.clause .only) =
      some (.between block { Sentence.outline tag ⟨block, c, missing, vars, false⟩ with only := true } .only) := by
    cases missing <;> cases vars <;> rfl
  rw [openTokens_only, h.run_clause honly, List.length_append]
  rfl

theorem reaches (tag : String) (s : Sentence) : Reaches tag s := by
  obtain ⟨block, c, missing, vars, only⟩ := s
  have hmissing : Reaches tag ⟨block, c, missing, none, false⟩ := by
    cases missing with
    | false => exact reaches_bare block c
    | true => exact (reaches_bare block c).missing
  have hvars : Reaches tag ⟨block, c, missing, vars, false⟩ := by
    cases vars with
    | none => exact hmissing
    | some d => exact hmissing.vars d
  cases only with
  | false => exact hvars
  | true => exact hvars.only

/-! ### What has been read -/

/-- The tokens that have been read when a phase is reached. -/
inductive Reads (tag : String) : Phase → List Token → Prop
  | start : Reads tag .start []
  | opened : Reads tag .opened [.blockOpen]
  | component {us : List Token} (block : Bool) {r : Expr.Reader} (h : Expr.Reader.Reads r us) :
    Reads tag (.component block (head tag block).length r) (head tag block ++ us)
  | ignoring (block : Bool) (c : Chain) :
    Reads tag (.ignoring block ((bare block c).outline tag)) ((bare block c).openTokens tag ++ [.clause .ignore])
  | between (s : Sentence) : Reads tag (.between s.block (s.outline tag) s.last) (s.openTokens tag)
  | vars {us : List Token} (block : Bool) (c : Chain) (missing : Bool) {r : Expr.Reader} (h : Expr.Reader.Reads r us) :
    Reads tag
      (.vars block (Sentence.outline tag ⟨block, c, missing, none, false⟩)
        ((openTokens tag ⟨block, c, missing, none, false⟩).length + 1) r)
      (openTokens tag ⟨block, c, missing, none, false⟩ ++ .clause .with_ :: us)
  | closed (s : Sentence) (h : s.block = true) : Reads tag (.closed (s.outline tag)) (s.tokens tag)

theorem reads_only (block : Bool) (c : Chain) (missing : Bool) (vars : Option Chain) :
    Reads tag (.between block { Sentence.outline tag ⟨block, c, missing, vars, false⟩ with only := true } .only)
      (openTokens tag ⟨block, c, missing, vars, false⟩ ++ [.clause .only]) := by
  rw [← openTokens_only]
  exact .between ⟨block, c, missing, vars, true⟩

theorem reads_stepClause (s : Sentence) {t : Token} {p : Phase}
    (h : stepClause (s.openTokens tag).length s.block (s.outline tag) s.last t = some p) :
    Reads tag p (s.openTokens tag ++ [t]) := by
  obtain ⟨block, c, missing, vars, only⟩ := s
  unfold stepClause at h
  split at h
  · next hlast =>
    cases only <;> cases vars <;> cases missing <;> cases hlast
    cases h
    exact .ignoring block c
  · next hlast =>
    cases only <;> cases vars <;> cases missing <;> cases hlast
    cases h
    exact .vars block c false Expr.Reader.reads_start
  · next hlast =>
    cases only <;> cases vars <;> cases missing <;> cases hlast
    cases h
    exact .vars block c true Expr.Reader.reads_start
  · next hlast =>
    cases only <;> cases vars <;> cases missing <;> cases hlast
    cases h
    exact reads_only block c false none
  · next hlast =>
    cases only <;> cases vars <;> cases missing <;> cases hlast
    cases h
    exact reads_only block c true none
  · next hlast =>
    cases only <;> cases vars <;> cases missing <;> cases hlast
    all_goals
      cases h
      exact reads_only block c _ _
  · split at h
    · next hblock =>
      cases h
      cases hblock
      exact .closed _ rfl
    · cases h
  · cases h

theorem Reads.step {p p' : Phase} {ts : List Token} {t : Token} (hreads : Reads tag p ts)
    (h : p.step tag ts.length t = some p') : Reads tag p' (ts ++ [t]) := by
  cases hreads with
  | start =>
    simp only [Phase.step] at h
    split at h
    · next ht =>
      cases h
      rw [ht]
      exact .opened
    · split at h
      · next ht =>
        cases h
        rw [ht]
        exact .component false Expr.Reader.reads_start
      · cases h
  | opened =>
    simp only [Phase.step] at h
    split at h
    · next ht =>
      cases h
      rw [ht]
      exact .component true Expr.Reader.reads_start
    · cases h
  | component block hr =>
    simp only [Phase.step] at h
    split at h
    · next r' hstep =>
      cases h
      rw [List.append_assoc]
      exact .component block (hr.step hstep)
    · obtain ⟨e, he, h⟩ := Option.bind_eq_some_iff.mp h
      obtain ⟨c, rfl, rfl⟩ := hr.finish he
      rw [← openTokens_bare, ← outline_bare] at h
      rw [← openTokens_bare]
      exact reads_stepClause (bare block c) h
  | ignoring block c =>
    simp only [Phase.step] at h
    split at h
    · next ht =>
      cases h
      rw [ht, List.append_assoc]
      rw [List.singleton_append, ← openTokens_missing]
      exact .between ⟨block, c, true, none, false⟩
    · cases h
  | between s => exact reads_stepClause s h
  | vars block c missing hr =>
    simp only [Phase.step] at h
    split at h
    · next r' hstep =>
      cases h
      rw [List.append_assoc]
      exact .vars block c missing (hr.step hstep)
    · obtain ⟨e, he, h⟩ := Option.bind_eq_some_iff.mp h
      obtain ⟨d, rfl, rfl⟩ := hr.finish he
      rw [← openTokens_vars, ← outline_vars] at h
      rw [← openTokens_vars]
      exact reads_stepClause ⟨block, c, missing, some d, false⟩ h
  | closed => cases h

/-- A run counts the tokens that it reads. -/
theorem reads_of_run {s : Nat × Phase} {ts : List Token} (h : (reader tag).run (0, .start) ts = some s) :
    s.1 = ts.length ∧ Reads tag s.2 ts := by
  refine (reader tag).invariant_of_run (P := fun s ts => s.1 = ts.length ∧ Reads tag s.2 ts) ?_ ⟨rfl, .start⟩ h
  rintro ⟨n, p⟩ s' ts t ⟨rfl, hreads⟩ hstep
  obtain ⟨p', hp, rfl⟩ := Option.map_eq_some_iff.mp hstep
  exact ⟨by simp, hreads.step hp⟩

theorem Reads.finish {p : Phase} {ts : List Token} {o : Outline} (hreads : Reads tag p ts)
    (h : p.finish ts.length = some o) : ∃ s : Sentence, s.tokens tag = ts ∧ s.outline tag = o := by
  have hopen : ∀ s : Sentence, s.block = false → s.tokens tag = s.openTokens tag := by
    intro s hs
    rw [Sentence.tokens, hs]
    exact List.append_nil _
  cases hreads with
  | start => cases h
  | opened => cases h
  | component block hr =>
    cases block with
    | true => cases h
    | false =>
      obtain ⟨e, he, rfl⟩ := Option.map_eq_some_iff.mp h
      obtain ⟨c, rfl, rfl⟩ := hr.finish he
      rw [← openTokens_bare, ← outline_bare]
      exact ⟨bare false c, hopen _ rfl, rfl⟩
  | ignoring => cases h
  | between s =>
    cases hs : s.block with
    | true =>
      rw [hs] at h
      cases h
    | false =>
      rw [hs] at h
      exact ⟨s, hopen s hs, Option.some.inj h⟩
  | vars block c missing hr =>
    cases block with
    | true => cases h
    | false =>
      obtain ⟨e, he, rfl⟩ := Option.map_eq_some_iff.mp h
      obtain ⟨d, rfl, rfl⟩ := hr.finish he
      rw [← openTokens_vars, ← outline_vars]
      exact ⟨_, hopen _ rfl, rfl⟩
  | closed s => exact ⟨s, rfl, Option.some.inj h⟩

end Phase

/-- The reader accepts the tokens of the sentences and nothing else, and gives what the sentence says. -/
theorem ofTokens_eq_ok_iff {tag : String} {ts : List Token} {o : Outline} :
    ofTokens tag ts = .ok o ↔ ∃ s : Sentence, s.tokens tag = ts ∧ s.outline tag = o := by
  rw [ofTokens, TokenReader.read, (reader tag).readFrom_eq_ok_iff]
  constructor
  · rintro ⟨⟨n, p⟩, hrun, hfinish⟩
    obtain ⟨rfl, hreads⟩ := Phase.reads_of_run hrun
    exact hreads.finish hfinish
  · rintro ⟨s, rfl, rfl⟩
    obtain ⟨p, hrun, hsettled⟩ := Phase.reaches tag s
    cases hblock : s.block with
    | false =>
      have htokens : s.tokens tag = s.openTokens tag := by
        rw [Sentence.tokens, hblock]
        exact List.append_nil _
      rw [htokens]
      exact ⟨_, hrun, hsettled.finish hblock⟩
    | true =>
      have htokens : s.tokens tag = s.openTokens tag ++ [.blockClose] := by
        rw [Sentence.tokens, hblock]
        rfl
      have hclose : p.step tag (s.openTokens tag).length .blockClose = some (.closed (s.outline tag)) := by
        rw [hsettled.step (by decide) (by decide), hblock]
        rfl
      refine ⟨((s.openTokens tag).length + 1, .closed (s.outline tag)), ?_, rfl⟩
      rw [htokens]
      exact ((reader tag).run_append_of_run hrun _).trans ((reader tag).run_cons_of_step (Phase.step_reader hclose) [])

end Directive

end Inclusion
