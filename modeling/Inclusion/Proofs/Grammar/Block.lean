import Inclusion.Proofs.Grammar
/-!
# A sentence in a block

The opening and the closing of a block stand at the ends of a sentence and nowhere inside it.
-/

namespace Inclusion

namespace Grammar

/-- None of the tokens opens or closes a block. -/
def Inner (ts : List Token) : Prop :=
  ∀ t ∈ ts, t ≠ .blockOpen ∧ t ≠ .blockClose

theorem inner_append {ts us : List Token} (hts : Inner ts) (hus : Inner us) : Inner (ts ++ us) := by
  intro t ht
  exact (List.mem_append.mp ht).elim (hts t) (hus t)

theorem inner_cons {t : Token} {ts : List Token} (ht : t ≠ .blockOpen ∧ t ≠ .blockClose) (hts : Inner ts) :
    Inner (t :: ts) :=
  List.forall_mem_cons.mpr ⟨ht, hts⟩

theorem inner_nil : Inner [] := by
  intro t ht
  cases ht

theorem inner_word (w : Word) : w.token ≠ .blockOpen ∧ w.token ≠ .blockClose := by
  cases w <;> simp [Word.token]

theorem inner_key (k : Key) : k.token ≠ .blockOpen ∧ k.token ≠ .blockClose := by
  cases k with
  | word w => exact inner_word w
  | string s => simp [Key.token]

theorem inner_numeral (n : Numeral) : n.token ≠ .blockOpen ∧ n.token ≠ .blockClose := by
  cases n <;> simp [Numeral.token]

theorem inner_literal (l : Literal) : l.token ≠ .blockOpen ∧ l.token ≠ .blockClose := by
  cases l with
  | numeral n => exact inner_numeral n
  | _ => simp [Literal.token]

theorem inner_segments (ws : List Word) : Inner (segments ws) := by
  induction ws with
  | nil => exact inner_nil
  | cons w ws ih => exact inner_cons (by simp) (inner_cons (inner_word w) ih)

mutual

theorem inner_chain : ∀ c : Chain, Inner c.tokens
  | .one a => inner_atom a
  | .cons a c => inner_append (inner_atom a) (inner_cons (by simp) (inner_chain c))

theorem inner_atom : ∀ a : Atom, Inner a.tokens
  | .literal l => inner_cons (inner_literal l) inner_nil
  | .negative n => inner_cons (by simp) (inner_cons (inner_numeral n) inner_nil)
  | .name first rest => inner_cons (inner_word first) (inner_segments rest)
  | .paren c => inner_cons (by simp) (inner_append (inner_chain c) (inner_cons (by simp) inner_nil))
  | .list items => inner_cons (by simp) (inner_append (inner_items items) (inner_cons (by simp) inner_nil))
  | .map entries => inner_cons (by simp) (inner_append (inner_entries entries) (inner_cons (by simp) inner_nil))

theorem inner_items : ∀ items : Items, Inner items.tokens
  | .nil => inner_nil
  | .one c => inner_chain c
  | .cons c items => inner_append (inner_chain c) (inner_cons (by simp) (inner_items items))

theorem inner_entries : ∀ entries : Entries, Inner entries.tokens
  | .nil => inner_nil
  | .one k c => inner_cons (inner_key k) (inner_cons (by simp) (inner_chain c))
  | .cons k c entries =>
    inner_cons (inner_key k) (inner_cons (by simp)
      (inner_append (inner_chain c) (inner_cons (by simp) (inner_entries entries))))

end

theorem Sentence.inner_openTokens (s : Sentence) :
    Inner (s.component.tokens ++ missingTokens s.missing ++ varsTokens s.vars ++ onlyTokens s.only) := by
  have hmissing : Inner (missingTokens s.missing) := by
    cases s.missing <;> simp [Inner, missingTokens]
  have hvars : Inner (varsTokens s.vars) := by
    cases s.vars with
    | none => exact inner_nil
    | some c => exact inner_cons (by simp) (inner_chain c)
  have honly : Inner (onlyTokens s.only) := by
    cases s.only <;> simp [Inner, onlyTokens]
  exact inner_append (inner_append (inner_append (inner_chain s.component) hmissing) hvars) honly

/-- A sentence whose tokens begin with the opening of a block. -/
theorem Sentence.exists_inner {tag : String} {s : Sentence} {ts : List Token} (h : s.tokens tag = .blockOpen :: ts) :
    ∃ inner, Inner inner ∧ ts = .ident tag :: (inner ++ [.blockClose]) := by
  refine ⟨_, s.inner_openTokens, ?_⟩
  cases hblock : s.block with
  | true => 
    rw [Sentence.tokens, Sentence.openTokens, hblock] at h
    simpa [Sentence.head, Sentence.closeTokens] using h.symm
  | false =>
    rw [Sentence.tokens, Sentence.openTokens, hblock] at h
    simp [Sentence.head] at h

end Grammar

end Inclusion
