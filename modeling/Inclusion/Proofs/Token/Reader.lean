import Inclusion.Token.Reader
/-!
# Readers and the languages that they read

Tokens are viable if they are the beginning of a member of a language. A reader takes tokens one by one and never looks
ahead, so it has a step for each token of a member and therefore for each of viable ones. If no state of the reader is a
dead end, it has steps for no others (`Recognizes.viable_iff`): it stops at the first token that leaves the viable ones
(`Recognizes.stopsAt`).
-/

namespace Inclusion

namespace TokenReader

variable {σ α : Type} (reader : TokenReader σ α) {s s' : σ} {t : Token} {ts us : List Token}

/-! ### Running -/

/-- The state after some tokens, if there is a step for each. -/
def run (s : σ) (ts : List Token) : Option σ :=
  ts.foldlM reader.step s

theorem run_nil (s : σ) : reader.run s [] = some s := rfl

theorem run_cons (s : σ) (t : Token) (ts : List Token) :
    reader.run s (t :: ts) = (reader.step s t).bind fun s' => reader.run s' ts :=
  rfl

theorem run_cons_of_step (h : reader.step s t = some s') (ts : List Token) :
    reader.run s (t :: ts) = reader.run s' ts := by
  rw [run_cons, h, Option.bind_some]

theorem run_append_of_run (h : reader.run s ts = some s') (us : List Token) :
    reader.run s (ts ++ us) = reader.run s' us := by
  rw [run, List.foldlM_append]
  rw [run] at h
  rw [h]
  rfl

theorem exists_run_of_append (h : reader.run s (ts ++ us) = some s') : ∃ between, reader.run s ts = some between := by
  rw [run, List.foldlM_append] at h
  obtain ⟨between, hrun, -⟩ := Option.bind_eq_some_iff.mp h
  exact ⟨between, hrun⟩

/-- What each step keeps is kept by a run. -/
theorem invariant_of_run {P : σ → List Token → Prop}
    (hstep : ∀ {s s' ts t}, P s ts → reader.step s t = some s' → P s' (ts ++ [t])) (h : P s ts)
    (hrun : reader.run s us = some s') : P s' (ts ++ us) := by
  induction us generalizing s ts with
  | nil =>
    cases hrun
    rwa [List.append_nil]
  | cons t us ih =>
    obtain ⟨between, hone, hrest⟩ := Option.bind_eq_some_iff.mp hrun
    have hkept := ih (hstep h hone) hrest
    rwa [List.append_assoc] at hkept

theorem readFrom_eq_ok_iff {n : Nat} {a : α} :
    reader.readFrom n s ts = .ok a ↔ ∃ s', reader.run s ts = some s' ∧ reader.finish s' = some a := by
  induction ts generalizing n s with
  | nil =>
    rw [readFrom, run_nil]
    cases h : reader.finish s <;> simp [h]
  | cons t ts ih =>
    rw [readFrom, run_cons]
    cases reader.step s t with
    | none => simp
    | some s' => exact ih

theorem exists_of_readFrom_error {n : Nat} {stop : Stop} (h : reader.readFrom n s ts = .error stop) :
    ∃ k s', stop.index = n + k ∧ k ≤ ts.length ∧ reader.run s (ts.take k) = some s' ∧
      (∀ t ∈ ts[k]?, reader.step s' t = none) ∧ stop.expected = reader.expected s' := by
  induction ts generalizing n s with
  | nil =>
    rw [readFrom] at h
    split at h
    · cases h
    · cases h
      exact ⟨0, s, rfl, Nat.le_refl _, rfl, by simp, rfl⟩
  | cons t ts ih =>
    rw [readFrom] at h
    split at h
    · next between hstep =>
      obtain ⟨k, s', hindex, hk, hrun, hnone, hexpected⟩ := ih h
      refine ⟨k + 1, s', ?_, Nat.succ_le_succ hk, ?_, ?_, hexpected⟩
      · rw [hindex, Nat.add_assoc, Nat.add_comm 1]
      · rw [List.take_succ_cons, reader.run_cons_of_step hstep, hrun]
      · rwa [List.getElem?_cons_succ]
    · next hstep =>
      cases h
      refine ⟨0, s, rfl, Nat.zero_le _, rfl, ?_, rfl⟩
      rintro u ⟨⟩
      exact hstep

end TokenReader

/-! ### Viable tokens -/

namespace Grammar

/-- The tokens are the beginning of a member of the language. -/
def Viable (language : List Token → Prop) (ts : List Token) : Prop :=
  ∃ rest, language (ts ++ rest)

theorem Viable.of_append {language : List Token → Prop} {ts us : List Token} (h : Viable language (ts ++ us)) :
    Viable language ts := by
  obtain ⟨rest, hrest⟩ := h
  exact ⟨us ++ rest, by rwa [← List.append_assoc]⟩

end Grammar

open Grammar

/-- Reading stops before the token with the index, or at the end. The tokens before it are viable, and no longer so
together with it. -/
structure StopsAt (language : List Token → Prop) (ts : List Token) (index : Nat) : Prop where
  le_length : index ≤ ts.length
  viable : Viable language (ts.take index)
  not_viable : ∀ t ∈ ts[index]?, ¬ Viable language (ts.take index ++ [t])

namespace TokenReader

variable {σ α : Type} {reader : TokenReader σ α} {language : List Token → Prop} {s : σ} {ts : List Token}

/-- The reader accepts the members of the language and nothing else, and what it has begun it can bring to an end. -/
structure Recognizes (reader : TokenReader σ α) (language : List Token → Prop) : Prop where
  mem_iff : ∀ ts, language ts ↔ ∃ a, reader.read ts = .ok a
  exists_finish : ∀ s, ∃ ts s' a, reader.run s ts = some s' ∧ reader.finish s' = some a

/-- If what is read are the values of some sentences, the reader accepts the tokens of these sentences. -/
theorem exists_read_iff {ι : Type} {tokens : ι → List Token} {value : ι → α}
    (h : ∀ {ts a}, reader.read ts = .ok a ↔ ∃ x, tokens x = ts ∧ value x = a) (ts : List Token) :
    (∃ x, tokens x = ts) ↔ ∃ a, reader.read ts = .ok a := by
  simp only [h]
  constructor
  · rintro ⟨x, hx⟩
    exact ⟨value x, x, hx, rfl⟩
  · rintro ⟨a, x, hx, -⟩
    exact ⟨x, hx⟩

namespace Recognizes

theorem mem_iff_of_run (h : reader.Recognizes language) (hrun : reader.run reader.start ts = some s) :
    language ts ↔ (reader.finish s).isSome := by
  rw [h.mem_iff, Option.isSome_iff_exists]
  simp only [read, readFrom_eq_ok_iff, hrun, Option.some.injEq, exists_eq_left']

/-- The viable tokens are those that the reader has steps for. -/
theorem viable_iff (h : reader.Recognizes language) : Viable language ts ↔ ∃ s, reader.run reader.start ts = some s := by
  constructor
  · rintro ⟨rest, hrest⟩
    obtain ⟨a, ha⟩ := (h.mem_iff _).mp hrest
    obtain ⟨s, hrun, -⟩ := reader.readFrom_eq_ok_iff.mp ha
    exact reader.exists_run_of_append hrun
  · rintro ⟨s, hrun⟩
    obtain ⟨rest, s', a, hrest, hfinish⟩ := h.exists_finish s
    refine ⟨rest, (h.mem_iff _).mpr ⟨a, reader.readFrom_eq_ok_iff.mpr ⟨s', ?_, hfinish⟩⟩⟩
    exact (reader.run_append_of_run hrun rest).trans hrest

theorem viable_concat_iff (h : reader.Recognizes language) (hrun : reader.run reader.start ts = some s) (t : Token) :
    Viable language (ts ++ [t]) ↔ (reader.step s t).isSome := by
  rw [h.viable_iff, reader.run_append_of_run hrun, run_cons]
  cases reader.step s t <;> simp [run_nil]

theorem stopsAt (h : reader.Recognizes language) {stop : Stop} (hread : reader.read ts = .error stop) :
    StopsAt language ts stop.index := by
  obtain ⟨k, s, hindex, hk, hrun, hnone, -⟩ := reader.exists_of_readFrom_error hread
  obtain rfl : stop.index = k := hindex.trans (Nat.zero_add k)
  refine ⟨hk, h.viable_iff.mpr ⟨s, hrun⟩, fun t ht hviable => ?_⟩
  rw [h.viable_concat_iff hrun, hnone t ht] at hviable
  cases hviable

end Recognizes

end TokenReader

end Inclusion
