import Inclusion.Template
/-!
# Scanning a block in parts

The scan for the end of a block carries a state from one character to the next: the quote that is open, if one is.
`quoteAfter` is that state after a text, or nothing if the block was closed inside the text. A text can be scanned
in parts, provided that no part ends in the middle of a closing or of an escape, and the length of a block is the
length of the parts before the one with its closing (`blockLength_append`).
-/

namespace Inclusion

namespace Template

/-- The quote that is open after a text, when `quote` is open before it. -/
def quoteAfter (quote : Option Char) : List Char → Option (Option Char)
  | [] => some quote
  | c :: rest =>
    match quote with
    | some q =>
      if c = '\\' then
        match rest with
        | [] => some (some q)
        | _ :: rest => quoteAfter (some q) rest
      else quoteAfter (if c = q then none else some q) rest
    | none =>
      if c = '%' && rest.head? = some '}' then none
      else quoteAfter (if c = '"' || c = '\'' then some c else none) rest

theorem quoteAfter_quoted {c : Char} (hc : c ≠ '\\') (q : Char) (cs : List Char) :
    quoteAfter (some q) (c :: cs) = quoteAfter (if c = q then none else some q) cs := by
  rw [quoteAfter.eq_def]
  simp only [if_neg hc]

theorem quoteAfter_outside {c : Char} {cs : List Char} (h : ¬ (c = '%' && cs.head? = some '}') = true) :
    quoteAfter none (c :: cs) = quoteAfter (if c = '"' || c = '\'' then some c else none) cs := by
  rw [quoteAfter.eq_def]
  simp only [if_neg h]

/-- The text does not end in the middle of a closing or of an escape. -/
def EndsWhole (cs : List Char) : Prop :=
  ∀ c ∈ cs.getLast?, c ≠ '%' ∧ c ≠ '\\'

theorem endsWhole_nil : EndsWhole [] := by
  intro c hc
  cases hc

theorem EndsWhole.tail {c : Char} {cs : List Char} (h : EndsWhole (c :: cs)) : EndsWhole cs := by
  intro d hd
  apply h
  rw [List.getLast?_cons, hd]
  rfl

theorem EndsWhole.append {xs ys : List Char} (hne : ys ≠ []) (h : EndsWhole ys) : EndsWhole (xs ++ ys) := by
  intro c hc
  apply h
  rw [List.getLast?_append, List.getLast?_eq_some_getLast hne] at hc
  rw [List.getLast?_eq_some_getLast hne]
  exact hc

theorem endsWhole_concat (cs : List Char) {c : Char} (hc : c ≠ '%' ∧ c ≠ '\\') : EndsWhole (cs ++ [c]) := by
  intro d hd
  rw [List.getLast?_concat, Option.mem_some_iff] at hd
  exact hd ▸ hc

theorem quoteAfter_append {xs : List Char} (hxs : EndsWhole xs) (quote : Option Char) (ys : List Char) :
    quoteAfter quote (xs ++ ys) = (quoteAfter quote xs).bind fun q => quoteAfter q ys := by
  fun_induction quoteAfter quote xs with
  | case1 quote => simp
  | case2 q => exact absurd rfl (hxs '\\' rfl).2
  | case3 q c rest ih =>
    rw [← ih hxs.tail.tail]
    simp [quoteAfter]
  | case4 q c rest hc ih =>
    rw [← ih hxs.tail, List.cons_append, quoteAfter_quoted hc]
  | case5 c rest h =>
    simp only [Bool.and_eq_true, decide_eq_true_eq] at h
    obtain ⟨rest, rfl⟩ := List.head?_eq_some_iff.mp h.2
    rw [h.1]
    simp [quoteAfter]
  | case6 c rest h ih =>
    have hopen : ¬ (c = '%' && (rest ++ ys).head? = some '}') = true := by
      cases rest with
      | nil => simp [(hxs c rfl).1]
      | cons d rest => exact h
    rw [← ih hxs.tail, List.cons_append, quoteAfter_outside hopen]

theorem blockLength_append {xs : List Char} (hxs : EndsWhole xs) {quote q : Option Char}
    (h : quoteAfter quote xs = some q) (ys : List Char) :
    blockLength quote (xs ++ ys) = xs.length + blockLength q ys := by
  fun_induction quoteAfter quote xs with
  | case1 quote =>
    cases h
    simp
  | case2 q => exact absurd rfl (hxs '\\' rfl).2
  | case3 q c rest ih =>
    have := ih hxs.tail.tail h
    simp only [List.cons_append, blockLength, List.length_cons, if_true]
    omega
  | case4 q c rest hc ih =>
    have := ih hxs.tail h
    rw [List.cons_append, blockLength.eq_def]
    simp only [if_neg hc, List.length_cons]
    omega
  | case5 c rest hclosed => cases h
  | case6 c rest hopen ih =>
    have := ih hxs.tail h
    have hopen : ¬ (c = '%' && (rest ++ ys).head? = some '}') = true := by
      cases rest with
      | nil => simp [(hxs c rfl).1]
      | cons d rest => exact hopen
    rw [List.cons_append, blockLength.eq_def]
    simp only [if_neg hopen, List.length_cons]
    omega

/-- A block that is closed in a text ends there. -/
theorem blockLength_append_le {quote : Option Char} {xs : List Char} (h : quoteAfter quote xs = none) (ys : List Char) :
    blockLength quote (xs ++ ys) ≤ xs.length := by
  fun_induction quoteAfter quote xs with
  | case1 quote => cases h
  | case2 q => cases h
  | case3 q c rest ih =>
    have := ih h
    simp only [List.cons_append, blockLength, List.length_cons, if_true]
    omega
  | case4 q c rest hc ih =>
    have := ih h
    rw [List.cons_append, blockLength.eq_def]
    simp only [if_neg hc, List.length_cons]
    omega
  | case5 c rest hclosed =>
    simp only [Bool.and_eq_true, decide_eq_true_eq] at hclosed
    obtain ⟨rest, rfl⟩ := List.head?_eq_some_iff.mp hclosed.2
    rw [hclosed.1]
    simp [blockLength]
  | case6 c rest hopen ih =>
    have := ih h
    rw [List.cons_append, blockLength.eq_def]
    dsimp only
    split
    · cases rest with
      | nil => cases h
      | cons d rest => simp
    · simp only [List.length_cons]
      omega

theorem blockLength_close (quote : Option Char) : blockLength quote ['%', '}'] = 2 := by
  cases quote with
  | none => rfl
  | some q =>
    by_cases hq : '%' = q
    · subst hq
      simp [blockLength]
    · simp [blockLength, hq]

theorem blockLength_append_close {xs : List Char} (hxs : EndsWhole xs) (h : quoteAfter none xs = some none)
    (ys : List Char) : blockLength none (xs ++ ('%' :: '}' :: ys)) = xs.length + 2 := by
  rw [blockLength_append hxs h]
  simp [blockLength]

/-- A quote that is open before a closing makes the block run on: a blank after the closing is taken, too. -/
theorem quoteAfter_of_blockLength {xs : List Char} (hxs : EndsWhole xs)
    (h : blockLength none (xs ++ ['%', '}', ' ']) = xs.length + 2) : quoteAfter none xs = some none := by
  cases hq : quoteAfter none xs with
  | none =>
    have := blockLength_append_le hq ['%', '}', ' ']
    omega
  | some q =>
    cases q with
    | none => rfl
    | some q =>
      rw [blockLength_append hxs hq] at h
      have hlength : blockLength (some q) ['%', '}', ' '] = 2 := by omega
      exfalso
      by_cases h1 : '%' = q
      · subst h1
        simp [blockLength] at hlength
      · by_cases h2 : '}' = q
        · subst h2
          simp [blockLength] at hlength
        · simp [blockLength, h1, h2] at hlength

/-! ### Texts that the scan passes over -/

/-- A text without quotes and percent signs. -/
theorem quoteAfter_plain {cs : List Char} (h : ∀ c ∈ cs, c ≠ '"' ∧ c ≠ '\'' ∧ c ≠ '%') :
    quoteAfter none cs = some none := by
  induction cs with
  | nil => rfl
  | cons c cs ih =>
    have hc := h c List.mem_cons_self
    have hcs : quoteAfter none cs = some none := ih fun d hd => h d (List.mem_cons_of_mem c hd)
    simp [quoteAfter, hc.1, hc.2.1, hc.2.2, hcs]

theorem endsWhole_plain {cs : List Char} (h : ∀ c ∈ cs, c ≠ '%' ∧ c ≠ '\\') : EndsWhole cs := by
  intro c hc
  exact h c (List.mem_of_mem_getLast? hc)

/-- The sign at the opening or the closing of a block. -/
theorem endsWhole_and_quoteAfter_sign {cs : List Char} (h : cs = [] ∨ cs = ['-'] ∨ cs = ['~']) :
    EndsWhole cs ∧ quoteAfter none cs = some none := by
  rcases h with rfl | rfl | rfl
  · exact ⟨endsWhole_nil, rfl⟩
  · exact ⟨endsWhole_concat [] (by decide), rfl⟩
  · exact ⟨endsWhole_concat [] (by decide), rfl⟩

/-! ### The blocks of a template -/

/-- A piece adds one block at most. -/
theorem blocksFrom_cons (tags : List String) (start : Nat) (p : Kind × List Char) (ps : List (Kind × List Char)) :
    blocksFrom tags start (p :: ps) = blocksFrom tags (start + byteLength p.2) ps ∨
      ∃ tag, p.1 = .block ∧ firstWord p.2 = some tag ∧ tag ∈ tags ∧
        blocksFrom tags start (p :: ps) = ⟨tag, p.2, start⟩ :: blocksFrom tags (start + byteLength p.2) ps := by
  rw [blocksFrom.eq_def]
  dsimp only
  split
  · next tag hkind hword =>
    split
    · next htag => exact .inr ⟨tag, hkind, hword, List.contains_iff_mem.mp htag, rfl⟩
    · exact .inl rfl
  · exact .inl rfl

/-- The blocks of a piece, and those of the pieces after it. -/
theorem blocksFrom_cons_eq_append (tags : List String) (start : Nat) (p : Kind × List Char) (ps : List (Kind × List Char)) :
    blocksFrom tags start (p :: ps) = blocksFrom tags start [p] ++ blocksFrom tags (start + byteLength p.2) ps := by
  rw [blocksFrom.eq_def, blocksFrom.eq_def tags start [p]]
  dsimp only
  split
  · split <;> rfl
  · rfl

theorem blocksFrom_singleton (tags : List String) (start : Nat) (text : List Char) :
    blocksFrom tags start [(.block, text)] =
      match firstWord text with
      | some tag => if tags.contains tag then [⟨tag, text, start⟩] else []
      | none => [] := by
  rw [blocksFrom.eq_def]
  dsimp only
  cases firstWord text <;> rfl

theorem start_le_of_mem_blocksFrom {tags : List String} {start : Nat} {ps : List (Kind × List Char)} {b : Block}
    (h : b ∈ blocksFrom tags start ps) : start ≤ b.start := by
  induction ps generalizing start with
  | nil => cases h
  | cons p ps ih =>
    have hrest : b ∈ blocksFrom tags (start + byteLength p.2) ps → start ≤ b.start := by
      intro hb
      have := ih hb
      omega
    cases blocksFrom_cons tags start p ps with
    | inl heq => exact hrest (heq ▸ h)
    | inr heq =>
      obtain ⟨tag, -, -, -, heq⟩ := heq
      rw [heq] at h
      cases List.mem_cons.mp h with
      | inl hb =>
        subst hb
        exact Nat.le_refl start
      | inr hb => exact hrest hb

theorem blocksFrom_block {tags : List String} {tag : String} {text : List Char} (hword : firstWord text = some tag)
    (htag : tag ∈ tags) (start : Nat) (ps : List (Kind × List Char)) :
    blocksFrom tags start ((.block, text) :: ps) =
      ⟨tag, text, start⟩ :: blocksFrom tags (start + byteLength text) ps := by
  rw [blocksFrom.eq_def]
  simp [hword, htag]

/-- A comment or a block begins here. -/
def Opens (cs : List Char) : Prop :=
  ['{', '#'] <+: cs ∨ ['{', '%'] <+: cs

instance (cs : List Char) : Decidable (Opens cs) :=
  inferInstanceAs (Decidable (_ ∨ _))

theorem munch_plain {c : Char} {rest : List Char} (h : ¬ Opens (c :: rest)) : munch c rest = (.plain, 0) := by
  unfold munch
  split
  · next rest => exact absurd (.inl ⟨rest, rfl⟩) h
  · next rest => exact absurd (.inr ⟨rest, rfl⟩) h
  · rfl

/-- A text in which nothing begins has no block. -/
theorem blocksFrom_text {tags : List String} {cs ds : List Char} (h : ∀ n < cs.length, ¬ Opens ((cs ++ ds).drop n))
    (start : Nat) : blocksFrom tags start (pieces (cs ++ ds)) = blocksFrom tags (start + byteLength cs) (pieces ds) := by
  induction cs generalizing start with
  | nil => rfl
  | cons c cs ih =>
    have hmunch : munch c (cs ++ ds) = (.plain, 0) := munch_plain (h 0 (Nat.zero_lt_succ _))
    have hrest := ih (fun n hn => h (n + 1) (Nat.succ_lt_succ hn)) (start + c.utf8Size)
    rw [List.cons_append, pieces_cons, hmunch]
    cases blocksFrom_cons tags start (Kind.plain, [c]) (pieces (cs ++ ds)) with
    | inl heq => simpa [Nat.add_assoc] using heq.trans hrest
    | inr heq =>
      obtain ⟨tag, hkind, -⟩ := heq
      cases hkind

/-- Before the first brace there is no block. -/
theorem blocksFrom_append {tags : List String} {cs : List Char} (hcs : '{' ∉ cs) (start : Nat) (ds : List Char) :
    blocksFrom tags start (pieces (cs ++ ds)) = blocksFrom tags (start + byteLength cs) (pieces ds) := by
  refine blocksFrom_text (fun n hn hopens => hcs ?_) start
  rw [List.drop_append_of_le_length (Nat.le_of_lt hn), List.drop_eq_getElem_cons hn, List.cons_append] at hopens
  have hbrace : cs[n] = '{' := by
    rcases hopens with hopens | hopens
    · exact (List.cons_prefix_cons.mp hopens).1.symm
    · exact (List.cons_prefix_cons.mp hopens).1.symm
  exact hbrace ▸ List.getElem_mem hn

theorem munch_block (rest : List Char) : munch '{' ('%' :: rest) = (.block, blockLength none rest + 1) := rfl

theorem pieces_block (rest : List Char) : pieces ('{' :: '%' :: rest) =
    (.block, '{' :: '%' :: rest.take (blockLength none rest)) :: pieces (rest.drop (blockLength none rest)) := by
  rw [pieces_cons, munch_block, List.take_succ_cons, List.drop_succ_cons]

/-! ### Where the blocks are -/

theorem exists_of_mem_blocksFrom {tags : List String} {start : Nat} {ps : List (Kind × List Char)} {b : Block}
    (h : b ∈ blocksFrom tags start ps) :
    firstWord b.text = some b.tag ∧ b.tag ∈ tags ∧
      ∃ before after, ps = before ++ (.block, b.text) :: after ∧
        b.start = start + byteLength (before.flatMap Prod.snd) := by
  induction ps generalizing start with
  | nil => cases h
  | cons p ps ih =>
    have hrest : b ∈ blocksFrom tags (start + byteLength p.2) ps → firstWord b.text = some b.tag ∧ b.tag ∈ tags ∧
        ∃ before after, p :: ps = before ++ (.block, b.text) :: after ∧
          b.start = start + byteLength (before.flatMap Prod.snd) := by
      intro hb
      obtain ⟨hword, htag, before, after, heq, hstart⟩ := ih hb
      refine ⟨hword, htag, p :: before, after, by rw [heq, List.cons_append], ?_⟩
      rw [hstart, List.flatMap_cons, byteLength_append, Nat.add_assoc]
    cases blocksFrom_cons tags start p ps with
    | inl heq => exact hrest (heq ▸ h)
    | inr heq =>
      obtain ⟨tag, hkind, hword, htag, heq⟩ := heq
      rw [heq] at h
      cases List.mem_cons.mp h with
      | inl hb =>
        subst hb
        exact ⟨hword, htag, [], ps, by rw [List.nil_append, ← hkind], rfl⟩
      | inr hb => exact hrest hb

theorem eq_opening_of_mem_pieces {text : List Char} : ∀ {cs : List Char}, (Kind.block, text) ∈ pieces cs →
    ∃ r, text = '{' :: '%' :: r
  | [], h => by
    rw [pieces] at h
    cases h
  | c :: rest, h => by
    rw [pieces_cons] at h
    cases List.mem_cons.mp h with
    | inr h => exact eq_opening_of_mem_pieces h
    | inl h =>
      unfold munch at h
      split at h
      · cases h
      · obtain ⟨-, rfl⟩ := Prod.mk.inj h
        exact ⟨_, by rw [List.take_succ_cons]⟩
      · cases h
termination_by cs => cs.length
decreasing_by simp only [List.length_drop, List.length_cons]; omega

/-- A block is a piece of the template that begins with the opening of a block, and its first word is its tag. -/
theorem exists_of_mem_blocks {tags : List String} {cs : List Char} {b : Block} (h : b ∈ blocks tags cs) :
    firstWord b.text = some b.tag ∧ b.tag ∈ tags ∧ (∃ r, b.text = '{' :: '%' :: r) ∧
      ∃ before after, cs = before ++ b.text ++ after ∧ b.start = byteLength before := by
  obtain ⟨hword, htag, before, after, heq, hstart⟩ := exists_of_mem_blocksFrom h
  refine ⟨hword, htag, ?_, before.flatMap Prod.snd, after.flatMap Prod.snd, ?_, ?_⟩
  · have hmem : (Kind.block, b.text) ∈ pieces cs := heq ▸ List.mem_append_right _ List.mem_cons_self
    exact eq_opening_of_mem_pieces hmem
  · rw [← flatMap_snd_pieces cs, heq, List.flatMap_append, List.flatMap_cons, List.append_assoc]
  · rw [hstart, Nat.zero_add]

theorem pairwise_blocksFrom (tags : List String) (start : Nat) (ps : List (Kind × List Char)) :
    (blocksFrom tags start ps).Pairwise fun a b => a.span.stop ≤ b.start := by
  induction ps generalizing start with
  | nil => exact .nil
  | cons p ps ih =>
    cases blocksFrom_cons tags start p ps with
    | inl heq =>
      rw [heq]
      exact ih _
    | inr heq =>
      obtain ⟨tag, -, -, -, heq⟩ := heq
      rw [heq]
      refine List.pairwise_cons.mpr ⟨?_, ih _⟩
      intro b hb
      exact start_le_of_mem_blocksFrom hb

end Template

end Inclusion
