import Inclusion.Proofs.Grammar
/-!
# The grammar is unambiguous

A token sequence has at most one derivation. The tokens of an atom or chain end where the next token does not
go on with it (a dot after an atom, a dot or a tilde after a chain), and items and entries end at their closing
bracket; so two trees whose tokens begin one sequence, with such an end after each, are one tree with one rest.
The four statements go by one induction on the trees, and the first token of an atom says which alternative it is.
-/

namespace Inclusion

namespace Grammar

theorem Numeral.token_injective {m n : Numeral} (h : m.token = n.token) : m = n := by
  cases m <;> cases n <;> simp_all [Numeral.token]

theorem Literal.token_injective {l k : Literal} (h : l.token = k.token) : l = k := by
  cases l with
  | numeral m =>
    cases k with
    | numeral n => rw [Numeral.token_injective h]
    | _ => cases m <;> simp [Literal.token, Numeral.token] at h
  | _ =>
    cases k with
    | numeral n => cases n <;> simp [Literal.token, Numeral.token] at h
    | _ => simp_all [Literal.token]

theorem Word.token_injective {v w : Word} (h : v.token = w.token) : v = w := by
  cases v <;> cases w <;> simp_all [Word.token]

theorem Key.token_injective {j k : Key} (h : j.token = k.token) : j = k := by
  cases j with
  | word v =>
    cases k with
    | word w => rw [Word.token_injective h]
    | string s => cases v <;> simp [Key.token, Word.token] at h
  | string s =>
    cases k with
    | word w => cases w <;> simp [Key.token, Word.token] at h
    | string u => simp_all [Key.token]

/-! ### The first token -/

/-- The alternatives of an atom. -/
inductive Alternative
  | literal
  | negative
  | name
  | paren
  | list
  | map
  deriving DecidableEq

/-- The alternative of an atom that begins with the token. -/
def alternative? : Token → Option Alternative
  | .string _ | .bool _ | .null | .integer _ | .float _ => some .literal
  | .minus => some .negative
  | .ident _ | .clause _ => some .name
  | .parenOpen => some .paren
  | .bracketOpen => some .list
  | .braceOpen => some .map
  | _ => none

def Atom.alternative : Atom → Alternative
  | literal _ => .literal
  | negative _ => .negative
  | name _ _ => .name
  | paren _ => .paren
  | list _ => .list
  | map _ => .map

theorem Atom.tokens_eq_cons (a : Atom) :
    ∃ t ts, a.tokens = t :: ts ∧ alternative? t = some a.alternative := by
  cases a with
  | literal l =>
    refine ⟨l.token, [], rfl, ?_⟩
    cases l with
    | numeral n => cases n <;> rfl
    | _ => rfl
  | name first rest =>
    refine ⟨first.token, segments rest, rfl, ?_⟩
    cases first <;> rfl
  | _ => exact ⟨_, _, rfl, rfl⟩

theorem Chain.tokens_eq_cons (c : Chain) :
    ∃ t ts, c.tokens = t :: ts ∧ (alternative? t).isSome := by
  cases c with
  | one a =>
    obtain ⟨t, ts, h, ht⟩ := a.tokens_eq_cons
    exact ⟨t, ts, h, by rw [ht]; rfl⟩
  | cons a rest =>
    obtain ⟨t, ts, h, ht⟩ := a.tokens_eq_cons
    refine ⟨t, ts ++ .tilde :: rest.tokens, ?_, by rw [ht]; rfl⟩
    rw [Chain.tokens, h, List.cons_append]

theorem Atom.alternative_eq {a b : Atom} {r s : List Token} (h : a.tokens ++ r = b.tokens ++ s) :
    a.alternative = b.alternative := by
  obtain ⟨t, ts, ha, hta⟩ := a.tokens_eq_cons
  obtain ⟨u, us, hb, htb⟩ := b.tokens_eq_cons
  rw [ha, hb, List.cons_append, List.cons_append, List.cons.injEq] at h
  rw [h.1, htb] at hta
  exact (Option.some.inj hta).symm

/-- A chain does not begin with the end of a list. -/
theorem Chain.tokens_ne_bracketClose (c : Chain) (r s : List Token) : c.tokens ++ r ≠ .bracketClose :: s := by
  obtain ⟨t, ts, h, ht⟩ := c.tokens_eq_cons
  rw [h, List.cons_append]
  rintro ⟨⟩
  simp [alternative?] at ht

theorem Key.token_ne_braceClose (k : Key) : k.token ≠ .braceClose := by
  cases k with
  | word w => cases w <;> simp [Key.token, Word.token]
  | string s => simp [Key.token]

/-! ### One tree -/

theorem segments_unique {ws vs : List Word} {r s : List Token} (hr : r.head? ≠ some .dot) (hs : s.head? ≠ some .dot)
    (h : segments ws ++ r = segments vs ++ s) : ws = vs ∧ r = s := by
  induction ws generalizing vs with
  | nil =>
    cases vs with
    | nil => exact ⟨rfl, h⟩
    | cons v vs => exact absurd (congrArg List.head? h) hr
  | cons w ws ih =>
    cases vs with
    | nil => exact absurd (congrArg List.head? h).symm hs
    | cons v vs =>
      simp only [segments, List.flatMap_cons, List.cons_append, List.nil_append, List.cons.injEq, true_and] at h
      obtain ⟨rfl, rfl⟩ := ih h.2
      exact ⟨by rw [Word.token_injective h.1], rfl⟩

mutual

theorem Chain.unique : ∀ {c d : Chain} {r s : List Token}, (∀ t ∈ r.head?, t ≠ .dot ∧ t ≠ .tilde) →
    (∀ t ∈ s.head?, t ≠ .dot ∧ t ≠ .tilde) → c.tokens ++ r = d.tokens ++ s → c = d ∧ r = s
  | .one a, .one b, r, s, hr, hs, h => by
    obtain ⟨rfl, rfl⟩ := Atom.unique (fun e => (hr _ e).1 rfl) (fun e => (hs _ e).1 rfl) h
    exact ⟨rfl, rfl⟩
  | .one a, .cons b d, r, s, hr, hs, h => by
    simp only [Chain.tokens, List.append_assoc] at h
    obtain ⟨rfl, rfl⟩ := Atom.unique (fun e => (hr _ e).1 rfl) (by simp) h
    exact absurd rfl (hr _ rfl).2
  | .cons a c, .one b, r, s, hr, hs, h => by
    simp only [Chain.tokens, List.append_assoc] at h
    obtain ⟨rfl, rfl⟩ := Atom.unique (by simp) (fun e => (hs _ e).1 rfl) h
    exact absurd rfl (hs _ rfl).2
  | .cons a c, .cons b d, r, s, hr, hs, h => by
    simp only [Chain.tokens, List.append_assoc] at h
    obtain ⟨rfl, hrest⟩ := Atom.unique (by simp) (by simp) h
    obtain ⟨rfl, rfl⟩ := Chain.unique hr hs (List.cons.inj hrest).2
    exact ⟨rfl, rfl⟩

theorem Atom.unique : ∀ {a b : Atom} {r s : List Token}, r.head? ≠ some .dot → s.head? ≠ some .dot →
    a.tokens ++ r = b.tokens ++ s → a = b ∧ r = s
  | .literal l, b, r, s, hr, hs, h => by
    cases b with
    | literal k =>
      simp only [Atom.tokens, List.cons_append, List.nil_append, List.cons.injEq] at h
      exact ⟨by rw [Literal.token_injective h.1], h.2⟩
    | _ => cases Atom.alternative_eq h
  | .negative m, b, r, s, hr, hs, h => by
    cases b with
    | negative n =>
      simp only [Atom.tokens, List.cons_append, List.nil_append, List.cons.injEq, true_and] at h
      exact ⟨by rw [Numeral.token_injective h.1], h.2⟩
    | _ => cases Atom.alternative_eq h
  | .name v vs, b, r, s, hr, hs, h => by
    cases b with
    | name w ws =>
      simp only [Atom.tokens, List.cons_append, List.cons.injEq] at h
      obtain ⟨rfl, rfl⟩ := segments_unique hr hs h.2
      exact ⟨by rw [Word.token_injective h.1], rfl⟩
    | _ => cases Atom.alternative_eq h
  | .paren c, b, r, s, hr, hs, h => by
    cases b with
    | paren d =>
      simp only [Atom.tokens, List.cons_append, List.append_assoc, List.nil_append, List.cons.injEq, true_and] at h
      obtain ⟨rfl, hrest⟩ := Chain.unique (by simp) (by simp) h
      exact ⟨rfl, (List.cons.inj hrest).2⟩
    | _ => cases Atom.alternative_eq h
  | .list is, b, r, s, hr, hs, h => by
    cases b with
    | list js =>
      simp only [Atom.tokens, List.cons_append, List.append_assoc, List.nil_append, List.cons.injEq, true_and] at h
      obtain ⟨rfl, rfl⟩ := Items.unique h
      exact ⟨rfl, rfl⟩
    | _ => cases Atom.alternative_eq h
  | .map es, b, r, s, hr, hs, h => by
    cases b with
    | map fs =>
      simp only [Atom.tokens, List.cons_append, List.append_assoc, List.nil_append, List.cons.injEq, true_and] at h
      obtain ⟨rfl, rfl⟩ := Entries.unique h
      exact ⟨rfl, rfl⟩
    | _ => cases Atom.alternative_eq h

theorem Items.unique : ∀ {is js : Items} {r s : List Token},
    is.tokens ++ .bracketClose :: r = js.tokens ++ .bracketClose :: s → is = js ∧ r = s
  | .nil, .nil, r, s, h => ⟨rfl, (List.cons.inj h).2⟩
  | .nil, .one d, r, s, h => absurd h.symm (d.tokens_ne_bracketClose _ _)
  | .nil, .cons d js, r, s, h => by
    simp only [Items.tokens, List.append_assoc] at h
    exact absurd h.symm (d.tokens_ne_bracketClose _ _)
  | .one c, .nil, r, s, h => absurd h (c.tokens_ne_bracketClose _ _)
  | .one c, .one d, r, s, h => by
    obtain ⟨rfl, hrest⟩ := Chain.unique (by simp) (by simp) h
    exact ⟨rfl, (List.cons.inj hrest).2⟩
  | .one c, .cons d js, r, s, h => by
    simp only [Items.tokens, List.append_assoc] at h
    obtain ⟨-, hrest⟩ := Chain.unique (by simp) (by simp) h
    simp at hrest
  | .cons c is, .nil, r, s, h => by
    simp only [Items.tokens, List.append_assoc] at h
    exact absurd h (c.tokens_ne_bracketClose _ _)
  | .cons c is, .one d, r, s, h => by
    simp only [Items.tokens, List.append_assoc] at h
    obtain ⟨-, hrest⟩ := Chain.unique (by simp) (by simp) h
    simp at hrest
  | .cons c is, .cons d js, r, s, h => by
    simp only [Items.tokens, List.append_assoc] at h
    obtain ⟨rfl, hrest⟩ := Chain.unique (by simp) (by simp) h
    obtain ⟨rfl, rfl⟩ := Items.unique (List.cons.inj hrest).2
    exact ⟨rfl, rfl⟩

theorem Entries.unique : ∀ {es fs : Entries} {r s : List Token},
    es.tokens ++ .braceClose :: r = fs.tokens ++ .braceClose :: s → es = fs ∧ r = s
  | .nil, .nil, r, s, h => ⟨rfl, (List.cons.inj h).2⟩
  | .nil, .one k d, r, s, h => absurd (List.cons.inj h).1.symm k.token_ne_braceClose
  | .nil, .cons k d fs, r, s, h => absurd (List.cons.inj h).1.symm k.token_ne_braceClose
  | .one j c, .nil, r, s, h => absurd (List.cons.inj h).1 j.token_ne_braceClose
  | .one j c, .one k d, r, s, h => by
    simp only [Entries.tokens, List.cons_append, List.cons.injEq, true_and] at h
    obtain ⟨rfl, hrest⟩ := Chain.unique (by simp) (by simp) h.2
    exact ⟨by rw [Key.token_injective h.1], (List.cons.inj hrest).2⟩
  | .one j c, .cons k d fs, r, s, h => by
    simp only [Entries.tokens, List.cons_append, List.append_assoc, List.cons.injEq, true_and] at h
    obtain ⟨-, hrest⟩ := Chain.unique (by simp) (by simp) h.2
    simp at hrest
  | .cons j c es, .nil, r, s, h => absurd (List.cons.inj h).1 j.token_ne_braceClose
  | .cons j c es, .one k d, r, s, h => by
    simp only [Entries.tokens, List.cons_append, List.append_assoc, List.cons.injEq, true_and] at h
    obtain ⟨-, hrest⟩ := Chain.unique (by simp) (by simp) h.2
    simp at hrest
  | .cons j c es, .cons k d fs, r, s, h => by
    simp only [Entries.tokens, List.cons_append, List.append_assoc, List.cons.injEq, true_and] at h
    obtain ⟨rfl, hrest⟩ := Chain.unique (by simp) (by simp) h.2
    obtain ⟨rfl, rfl⟩ := Entries.unique (List.cons.inj hrest).2
    exact ⟨by rw [Key.token_injective h.1], rfl⟩

end

/-! ### One sentence -/

namespace Sentence

/-- The tokens after the component. -/
def clauseTokens (s : Sentence) : List Token :=
  missingTokens s.missing ++ (varsTokens s.vars ++ (onlyTokens s.only ++ closeTokens s.block))

theorem tokens_eq (tag : String) (s : Sentence) :
    s.tokens tag = head tag s.block ++ (s.component.tokens ++ s.clauseTokens) := by
  simp [tokens, openTokens, clauseTokens, List.append_assoc]

theorem head_only_block (only block : Bool) : ∀ t ∈ (onlyTokens only ++ closeTokens block).head?,
    t = .clause .only ∨ t = .blockClose := by
  cases only <;> cases block <;> simp [onlyTokens, closeTokens]

theorem head_vars_only_block (vars : Option Chain) (only block : Bool) :
    ∀ t ∈ (varsTokens vars ++ (onlyTokens only ++ closeTokens block)).head?,
      t = .clause .with_ ∨ t = .clause .only ∨ t = .blockClose := by
  cases vars with
  | none => exact fun t ht => .inr (head_only_block only block t ht)
  | some c => simp [varsTokens]

/-- No clause goes on with the expression before it. -/
theorem head_clauseTokens (s : Sentence) : ∀ t ∈ s.clauseTokens.head?, t ≠ .dot ∧ t ≠ .tilde := by
  intro t ht
  cases hm : s.missing with
  | true =>
    rw [clauseTokens, hm] at ht
    simp only [missingTokens, if_true, List.cons_append, List.head?_cons, Option.mem_some_iff] at ht
    subst ht
    simp
  | false =>
    rw [clauseTokens, hm] at ht
    rcases head_vars_only_block _ _ _ t ht with rfl | rfl | rfl <;> simp

theorem vars_unique {v w : Option Chain} {o p b : Bool}
    (h : varsTokens v ++ (onlyTokens o ++ closeTokens b) =
      varsTokens w ++ (onlyTokens p ++ closeTokens b)) : v = w ∧ o = p := by
  have hends : ∀ o : Bool, ∀ t ∈ (onlyTokens o ++ closeTokens b).head?, t ≠ .dot ∧ t ≠ .tilde := by
    intro o t ht
    rcases head_only_block o b t ht with rfl | rfl <;> simp
  have honly : ∀ {o p : Bool}, (onlyTokens o ++ closeTokens b) =
      onlyTokens p ++ closeTokens b → o = p := by
    intro o p h
    have := List.append_cancel_right h
    cases o <;> cases p <;> simp_all [onlyTokens]
  cases v with
  | none =>
    cases w with
    | none => exact ⟨rfl, honly h⟩
    | some d =>
      have := head_only_block o b (.clause .with_) (congrArg List.head? h)
      simp at this
  | some c =>
    cases w with
    | none =>
      have := head_only_block p b (.clause .with_) (congrArg List.head? h).symm
      simp at this
    | some d =>
      obtain ⟨rfl, hrest⟩ := Chain.unique (hends o) (hends p) (List.cons.inj h).2
      exact ⟨rfl, honly hrest⟩

theorem unique {tag : String} {s u : Sentence} (h : s.tokens tag = u.tokens tag) : s = u := by
  rw [tokens_eq, tokens_eq] at h
  obtain ⟨b, c, m, v, o⟩ := s
  obtain ⟨b', c', m', v', o'⟩ := u
  have hblock : b = b' := by
    cases b <;> cases b' <;> simp [head] at h ⊢
  subst hblock
  have hchain := Chain.unique (head_clauseTokens _) (head_clauseTokens _) (List.append_cancel_left h)
  obtain ⟨rfl, hclauses⟩ := hchain
  simp only [clauseTokens] at hclauses
  cases m with
  | false =>
    cases m' with
    | false =>
      obtain ⟨rfl, rfl⟩ := vars_unique hclauses
      rfl
    | true =>
      have := head_vars_only_block v o b (.clause .ignore) (congrArg List.head? hclauses)
      simp at this
  | true =>
    cases m' with
    | false =>
      have := head_vars_only_block v' o' b (.clause .ignore) (congrArg List.head? hclauses).symm
      simp at this
    | true =>
      obtain ⟨rfl, rfl⟩ := vars_unique (List.append_cancel_left hclauses)
      rfl

end Sentence

end Grammar

end Inclusion
