import Inclusion.Proofs.Template.Scan
/-!
# The segments of a template

What the segments of a template are, said without a scan. A comment goes on to the first closing of a comment after its
opening, a block to the first closing of a block after its opening with no string open before it, and what is not closed
goes on to the end. Everything else is text, and a text goes on to the next opening. So each template has segments, and
no others (`exists_segmented_iff`), and its blocks are those that the scan finds (`blocksFrom_pieces`).
-/

namespace Inclusion

namespace Template

/-! ### Strings -/

/-- What stands between the quotes of a string: a quote and a backslash only behind a backslash. -/
inductive Contents (quote : Char) : List Char → Prop
  | nil : Contents quote []
  | plain {c : Char} {cs : List Char} (hquote : c ≠ quote) (hescape : c ≠ '\\') (h : Contents quote cs) :
    Contents quote (c :: cs)
  | escape (c : Char) {cs : List Char} (h : Contents quote cs) : Contents quote ('\\' :: c :: cs)

/-- Whole strings, in either quotes, and characters that are no quotes. -/
inductive Balanced : List Char → Prop
  | nil : Balanced []
  | plain {c : Char} {cs : List Char} (hdouble : c ≠ '"') (hsingle : c ≠ '\'') (h : Balanced cs) : Balanced (c :: cs)
  | string {quote : Char} {contents cs : List Char} (hquote : quote = '"' ∨ quote = '\'') (hcontents : Contents quote contents)
    (h : Balanced cs) : Balanced (quote :: (contents ++ quote :: cs))

/-- After the text no string is open, when the one with `quote` is open before it. -/
def Unquoted : Option Char → List Char → Prop
  | none, cs => Balanced cs
  | some quote, cs => ∃ contents rest, cs = contents ++ quote :: rest ∧ Contents quote contents ∧ Balanced rest

variable {c quote : Char} {cs : List Char}

theorem unquoted_outside : Unquoted none (c :: cs) ↔ Unquoted (if c = '"' ∨ c = '\'' then some c else none) cs := by
  by_cases hc : c = '"' ∨ c = '\''
  · rw [if_pos hc]
    constructor
    · intro h
      cases h with
      | plain hdouble hsingle => exact absurd hc (not_or.mpr ⟨hdouble, hsingle⟩)
      | string _ hcontents h => exact ⟨_, _, rfl, hcontents, h⟩
    · rintro ⟨contents, rest, rfl, hcontents, h⟩
      exact .string hc hcontents h
  · rw [if_neg hc]
    constructor
    · intro h
      cases h with
      | plain _ _ h => exact h
      | string hquote => exact absurd hquote hc
    · intro h
      rw [not_or] at hc
      exact .plain hc.1 hc.2 h

theorem not_unquoted_nil : ¬ Unquoted (some quote) [] := by
  rintro ⟨contents, rest, h, -⟩
  cases contents <;> cases h

theorem unquoted_plain (hc : c ≠ '\\') :
    Unquoted (some quote) (c :: cs) ↔ Unquoted (if c = quote then none else some quote) cs := by
  constructor
  · rintro ⟨contents, rest, heq, hcontents, h⟩
    cases hcontents with
    | nil =>
      cases heq
      rw [if_pos rfl]
      exact h
    | plain hquote _ hcontents =>
      cases heq
      rw [if_neg hquote]
      exact ⟨_, rest, rfl, hcontents, h⟩
    | escape _ _ =>
      cases heq
      exact absurd rfl hc
  · intro h
    split at h
    · next heq => exact ⟨[], cs, by rw [heq, List.nil_append], .nil, h⟩
    · next hne =>
      obtain ⟨contents, rest, rfl, hcontents, h⟩ := h
      exact ⟨c :: contents, rest, rfl, .plain hne hc hcontents, h⟩

theorem unquoted_escape (hquote : quote ≠ '\\') (c : Char) :
    Unquoted (some quote) ('\\' :: c :: cs) ↔ Unquoted (some quote) cs := by
  constructor
  · rintro ⟨contents, rest, heq, hcontents, h⟩
    cases hcontents with
    | nil =>
      cases heq
      exact absurd rfl hquote
    | plain _ hescape _ =>
      rw [List.cons_append, List.cons.injEq] at heq
      exact absurd heq.1.symm hescape
    | escape _ hcontents =>
      rw [List.cons_append, List.cons_append, List.cons.injEq, List.cons.injEq] at heq
      exact ⟨_, rest, heq.2.2, hcontents, h⟩
  · rintro ⟨contents, rest, rfl, hcontents, h⟩
    exact ⟨'\\' :: c :: contents, rest, rfl, .escape c hcontents, h⟩

theorem not_unquoted_backslash (hquote : quote ≠ '\\') : ¬ Unquoted (some quote) ['\\'] := by
  rintro ⟨contents, rest, heq, hcontents, -⟩
  cases hcontents with
  | nil =>
    cases heq
    exact hquote rfl
  | plain _ hescape _ =>
    rw [List.cons_append, List.cons.injEq] at heq
    exact hescape heq.1.symm
  | escape _ _ =>
    rw [List.cons_append, List.cons_append, List.cons.injEq] at heq
    cases heq.2

/-! ### Where a comment and a block end -/

/-- The closing of a comment stands after the first `n` characters. -/
def CommentClosesAt (body : List Char) (n : Nat) : Prop :=
  ['#', '}'] <+: body.drop n

/-- The closing of a block stands after the first `n` characters, and outside strings. -/
def BlockClosesAt (quote : Option Char) (body : List Char) (n : Nat) : Prop :=
  Unquoted quote (body.take n) ∧ ['%', '}'] <+: body.drop n

/-- What begins before a text with `length` characters has `n` of them: those up to and with its first closing, or, if
there is none, all. -/
inductive RunsTo (closesAt : Nat → Prop) (length : Nat) : Nat → Prop
  | closed {n : Nat} (h : closesAt n) (hfirst : ∀ m < n, ¬ closesAt m) : RunsTo closesAt length (n + 2)
  | toEnd (h : ∀ n, ¬ closesAt n) : RunsTo closesAt length length

theorem RunsTo.unique {closesAt : Nat → Prop} {length m n : Nat} (hm : RunsTo closesAt length m)
    (hn : RunsTo closesAt length n) : m = n := by
  cases hm with
  | toEnd hm =>
    cases hn with
    | toEnd => rfl
    | closed hn => exact absurd hn (hm _)
  | closed hm hmfirst =>
    cases hn with
    | toEnd hn => exact absurd hm (hn _)
    | closed hn hnfirst =>
      rcases Nat.lt_trichotomy _ _ with hlt | heq | hlt
      · exact absurd hm (hnfirst _ hlt)
      · rw [heq]
      · exact absurd hn (hmfirst _ hlt)

/-- One more character before the text, at which nothing is closed. -/
theorem RunsTo.cons {closesAt closesAt' : Nat → Prop} {length n : Nat} (hfirst : ¬ closesAt' 0)
    (hrest : ∀ n, closesAt' (n + 1) ↔ closesAt n) (h : RunsTo closesAt length n) : RunsTo closesAt' (length + 1) (n + 1) := by
  cases h with
  | closed h hbefore =>
    refine .closed ((hrest _).mpr h) fun m hm => ?_
    cases m with
    | zero => exact hfirst
    | succ m => exact fun hclose => hbefore m (Nat.lt_of_succ_lt_succ hm) ((hrest m).mp hclose)
  | toEnd h =>
    refine .toEnd fun n => ?_
    cases n with
    | zero => exact hfirst
    | succ n => exact fun hclose => h n ((hrest n).mp hclose)

theorem not_commentClosesAt_nil (n : Nat) : ¬ CommentClosesAt [] n := by
  rw [CommentClosesAt, List.drop_nil]
  exact fun h => absurd (List.prefix_nil.mp h) (by simp)

theorem not_blockClosesAt_nil (quote : Option Char) (n : Nat) : ¬ BlockClosesAt quote [] n := by
  rw [BlockClosesAt, List.drop_nil]
  exact fun h => absurd (List.prefix_nil.mp h.2) (by simp)

theorem commentLength_runsTo (body : List Char) : RunsTo (CommentClosesAt body) body.length (commentLength body) := by
  fun_induction commentLength body with
  | case1 => exact .toEnd not_commentClosesAt_nil
  | case2 rest => exact .closed ⟨rest, rfl⟩ fun m hm => absurd hm (Nat.not_lt_zero m)
  | case3 c rest hclose ih =>
    refine ih.cons ?_ fun n => Iff.rfl
    rintro ⟨after, heq⟩
    cases heq
    exact hclose after rfl rfl

/-- A quote is no backslash, so what is behind a backslash is never the closing of a string. -/
theorem blockLength_runsTo {quote : Option Char} (hquote : ∀ q ∈ quote, q ≠ '\\') (body : List Char) :
    RunsTo (BlockClosesAt quote body) body.length (blockLength quote body) := by
  fun_induction blockLength quote body with
  | case1 quote => exact .toEnd (not_blockClosesAt_nil quote)
  | case2 q =>
    refine .toEnd fun n hclose => ?_
    cases n with
    | zero => exact absurd hclose.2 (by decide)
    | succ n =>
      rw [BlockClosesAt, List.drop_succ_cons, List.drop_nil] at hclose
      exact absurd hclose.2 (by decide)
  | case3 q c rest ih =>
    have hq := hquote q rfl
    have hafter : RunsTo (fun n => BlockClosesAt (some q) ('\\' :: c :: rest) (n + 1)) (rest.length + 1)
        (blockLength (some q) rest + 1) := by
      refine (ih hquote).cons (fun hclose => not_unquoted_backslash hq hclose.1) fun n => ?_
      exact and_congr_left' (unquoted_escape hq c)
    exact hafter.cons (fun hclose => not_unquoted_nil hclose.1) fun n => Iff.rfl
  | case4 c rest q hc ih =>
    have hnext : ∀ p ∈ (if c = q then none else some q), p ≠ '\\' := by
      intro p hp
      split at hp
      · cases hp
      · exact hquote p hp
    refine (ih hnext).cons (fun hclose => not_unquoted_nil hclose.1) fun n => ?_
    exact and_congr_left' (unquoted_plain hc)
  | case5 c rest hclose =>
    simp only [Bool.and_eq_true, decide_eq_true_eq] at hclose
    obtain ⟨rest, rfl⟩ := List.head?_eq_some_iff.mp hclose.2
    rw [hclose.1]
    exact .closed ⟨.nil, rest, rfl⟩ fun m hm => absurd hm (Nat.not_lt_zero m)
  | case6 c rest hopen ih =>
    have hnext : ∀ p ∈ (if c = '"' || c = '\'' then some c else none), p ≠ '\\' := by
      intro p hp
      split at hp
      · next hc =>
        cases hp
        rintro rfl
        exact absurd hc (by decide)
      · cases hp
    refine (ih hnext).cons ?_ fun n => ?_
    · rintro ⟨-, after, heq⟩
      cases heq
      exact hopen (by simp)
    · simp only [Bool.or_eq_true, decide_eq_true_eq]
      exact and_congr_left' unquoted_outside

/-! ### Segments -/

/-- What a template is made of, from the first segment to the last. -/
inductive Segmented : List Char → List (Kind × List Char) → Prop
  | nil : Segmented [] []
  | comment {body : List Char} {n : Nat} {segs : List (Kind × List Char)} (h : RunsTo (CommentClosesAt body) body.length n)
    (hrest : Segmented (body.drop n) segs) :
    Segmented ('{' :: '#' :: body) ((.comment, '{' :: '#' :: body.take n) :: segs)
  | block {body : List Char} {n : Nat} {segs : List (Kind × List Char)}
    (h : RunsTo (BlockClosesAt none body) body.length n) (hrest : Segmented (body.drop n) segs) :
    Segmented ('{' :: '%' :: body) ((.block, '{' :: '%' :: body.take n) :: segs)
  | text {text rest : List Char} {segs : List (Kind × List Char)} (hne : text ≠ [])
    (hnone : ∀ n < text.length, ¬ Opens ((text ++ rest).drop n)) (hnext : rest = [] ∨ Opens rest)
    (hrest : Segmented rest segs) : Segmented (text ++ rest) ((.plain, text) :: segs)

theorem pieces_comment (rest : List Char) : pieces ('{' :: '#' :: rest) =
    (.comment, '{' :: '#' :: rest.take (commentLength rest)) :: pieces (rest.drop (commentLength rest)) := by
  have hmunch : munch '{' ('#' :: rest) = (.comment, commentLength rest + 1) := rfl
  rw [pieces_cons, hmunch, List.take_succ_cons, List.drop_succ_cons]

theorem blockLength_eq {body : List Char} {n : Nat} (h : RunsTo (BlockClosesAt none body) body.length n) :
    blockLength none body = n :=
  (blockLength_runsTo (by simp) body).unique h

theorem commentLength_eq {body : List Char} {n : Nat} (h : RunsTo (CommentClosesAt body) body.length n) :
    commentLength body = n :=
  (commentLength_runsTo body).unique h

theorem pieces_comment_of_runsTo {body : List Char} {n : Nat} (h : RunsTo (CommentClosesAt body) body.length n) :
    pieces ('{' :: '#' :: body) = (.comment, '{' :: '#' :: body.take n) :: pieces (body.drop n) := by
  rw [pieces_comment, commentLength_eq h]

theorem pieces_block_of_runsTo {body : List Char} {n : Nat} (h : RunsTo (BlockClosesAt none body) body.length n) :
    pieces ('{' :: '%' :: body) = (.block, '{' :: '%' :: body.take n) :: pieces (body.drop n) := by
  rw [pieces_block, blockLength_eq h]

/-- The scan finds the blocks among the segments. -/
theorem blocksFrom_pieces {tags : List String} {segs : List (Kind × List Char)} (h : Segmented cs segs) (start : Nat) :
    blocksFrom tags start (pieces cs) = blocksFrom tags start segs := by
  induction h generalizing start with
  | nil => rw [pieces]
  | comment h _ ih =>
    rw [pieces_comment_of_runsTo h, blocksFrom_cons_eq_append, ih, ← blocksFrom_cons_eq_append]
  | block h _ ih =>
    rw [pieces_block_of_runsTo h, blocksFrom_cons_eq_append, ih, ← blocksFrom_cons_eq_append]
  | text _ hnone _ _ ih =>
    rw [blocksFrom_text hnone, ih, blocksFrom_cons_eq_append]
    rfl

theorem Segmented.flatMap_snd {segs : List (Kind × List Char)} (h : Segmented cs segs) : segs.flatMap Prod.snd = cs := by
  induction h with
  | nil => rfl
  | comment _ _ ih => rw [List.flatMap_cons, ih, List.cons_append, List.cons_append, List.take_append_drop]
  | block _ _ ih => rw [List.flatMap_cons, ih, List.cons_append, List.cons_append, List.take_append_drop]
  | text _ _ _ _ ih => rw [List.flatMap_cons, ih]

/-- A character at which nothing begins belongs to the text that begins there. -/
theorem Segmented.cons {segs : List (Kind × List Char)} (hc : ¬ Opens (c :: cs)) (h : Segmented cs segs) :
    ∃ segs, Segmented (c :: cs) segs := by
  have hsingle (rest : List Char) (hrest : ¬ Opens (c :: rest)) : ∀ n < [c].length, ¬ Opens (([c] ++ rest).drop n) := by
    intro n hn
    rw [Nat.lt_one_iff.mp hn]
    exact hrest
  cases h with
  | nil => exact ⟨_, .text (List.cons_ne_nil c []) (hsingle [] hc) (.inl rfl) .nil⟩
  | comment h hrest => exact ⟨_, .text (List.cons_ne_nil c []) (hsingle _ hc) (.inr (.inl ⟨_, rfl⟩)) (.comment h hrest)⟩
  | block h hrest => exact ⟨_, .text (List.cons_ne_nil c []) (hsingle _ hc) (.inr (.inr ⟨_, rfl⟩)) (.block h hrest)⟩
  | @text text rest segs hne hnone hnext hrest =>
    refine ⟨_, @Segmented.text (c :: text) rest segs (List.cons_ne_nil c text) (fun n hn => ?_) hnext hrest⟩
    cases n with
    | zero => exact hc
    | succ n => exact hnone n (Nat.lt_of_succ_lt_succ hn)

theorem exists_segmented : ∀ cs : List Char, ∃ segs, Segmented cs segs
  | [] => ⟨[], .nil⟩
  | c :: rest => by
    by_cases hopens : Opens (c :: rest)
    · rcases hopens with ⟨body, heq⟩ | ⟨body, heq⟩
      · have hlength : body.length + 2 = rest.length + 1 := congrArg List.length heq
        obtain ⟨segs, h⟩ := exists_segmented (body.drop (commentLength body))
        rw [← heq]
        exact ⟨_, .comment (commentLength_runsTo body) h⟩
      · have hlength : body.length + 2 = rest.length + 1 := congrArg List.length heq
        obtain ⟨segs, h⟩ := exists_segmented (body.drop (blockLength none body))
        rw [← heq]
        exact ⟨_, .block (blockLength_runsTo (by simp) body) h⟩
    · obtain ⟨segs, h⟩ := exists_segmented rest
      exact h.cons hopens
termination_by cs => cs.length
decreasing_by all_goals simp only [List.length_drop, List.length_cons]; omega

/-! ### The segments are the only ones -/

section

variable {body : List Char} {segs : List (Kind × List Char)}

/-- Where something begins, no text does. -/
theorem Segmented.cases_of_opens (h : Segmented cs segs) (hopens : Opens cs) :
    (∃ body n rest, cs = '{' :: '#' :: body ∧ RunsTo (CommentClosesAt body) body.length n ∧ Segmented (body.drop n) rest ∧
        segs = (.comment, '{' :: '#' :: body.take n) :: rest) ∨
      ∃ body n rest, cs = '{' :: '%' :: body ∧ RunsTo (BlockClosesAt none body) body.length n ∧
        Segmented (body.drop n) rest ∧ segs = (.block, '{' :: '%' :: body.take n) :: rest := by
  cases h with
  | nil => rcases hopens with ⟨_, heq⟩ | ⟨_, heq⟩ <;> cases heq
  | comment h hrest => exact .inl ⟨_, _, _, rfl, h, hrest, rfl⟩
  | block h hrest => exact .inr ⟨_, _, _, rfl, h, hrest, rfl⟩
  | text hne hnone =>
    exact absurd hopens (hnone 0 (List.length_pos_iff.mpr hne))

/-- Where nothing begins, a text does, and it goes on to the next opening. -/
theorem Segmented.cases_of_not_opens (h : Segmented cs segs) (hopens : ¬ Opens cs) (hne : cs ≠ []) :
    ∃ text rest tail, cs = text ++ rest ∧ text ≠ [] ∧ (∀ n < text.length, ¬ Opens ((text ++ rest).drop n)) ∧
      (rest = [] ∨ Opens rest) ∧ Segmented rest tail ∧ segs = (.plain, text) :: tail := by
  cases h with
  | nil => exact absurd rfl hne
  | comment => exact absurd (.inl ⟨_, rfl⟩) hopens
  | block => exact absurd (.inr ⟨_, rfl⟩) hopens
  | text htext hnone hnext hrest => exact ⟨_, _, _, rfl, htext, hnone, hnext, hrest, rfl⟩

end

theorem Segmented.eq_nil {segs : List (Kind × List Char)} (h : Segmented [] segs) : segs = [] := by
  generalize hcs : [] = cs at h
  cases h with
  | nil => rfl
  | comment => cases hcs
  | block => cases hcs
  | text hne => exact absurd (List.append_eq_nil_iff.mp hcs.symm).1 hne

/-- A text in which nothing begins does not go on over the next opening. -/
theorem length_le_of_not_opens {text text' rest rest' : List Char} (heq : text ++ rest = text' ++ rest')
    (hnone : ∀ n < text.length, ¬ Opens ((text ++ rest).drop n)) (hnext : rest' = [] ∨ Opens rest') :
    text.length ≤ text'.length := by
  refine Nat.le_of_not_lt fun hlt => ?_
  rcases hnext with rfl | hopens
  · have hlength := congrArg List.length heq
    simp only [List.length_append, List.length_nil] at hlength
    omega
  · refine hnone text'.length hlt ?_
    rw [heq, List.drop_left]
    exact hopens

theorem Segmented.unique {segs segs' : List (Kind × List Char)} (h : Segmented cs segs) (h' : Segmented cs segs') :
    segs' = segs := by
  induction h generalizing segs' with
  | nil => exact h'.eq_nil
  | comment h hrest ih =>
    rcases h'.cases_of_opens (.inl ⟨_, rfl⟩) with ⟨body, n, rest, heq, hruns, hsegs, rfl⟩ | ⟨_, _, _, heq, -⟩
    · cases heq
      cases hruns.unique h
      rw [ih hsegs]
    · cases heq
  | block h hrest ih =>
    rcases h'.cases_of_opens (.inr ⟨_, rfl⟩) with ⟨_, _, _, heq, -⟩ | ⟨body, n, rest, heq, hruns, hsegs, rfl⟩
    · cases heq
    · cases heq
      cases hruns.unique h
      rw [ih hsegs]
  | text hne hnone hnext hrest ih =>
    have hopens := hnone 0 (List.length_pos_iff.mpr hne)
    obtain ⟨text, rest, tail, heq, -, hnone', hnext', hsegs, rfl⟩ :=
      h'.cases_of_not_opens hopens (List.append_ne_nil_of_left_ne_nil hne _)
    have hle := length_le_of_not_opens heq hnone hnext'
    have hge := length_le_of_not_opens heq.symm hnone' hnext
    obtain ⟨rfl, rfl⟩ := List.append_inj heq (Nat.le_antisymm hle hge)
    rw [ih hsegs]

/-- Every template has segments, and no others. -/
theorem exists_segmented_iff (cs : List Char) : ∃ segs, ∀ other, Segmented cs other ↔ other = segs := by
  obtain ⟨segs, h⟩ := exists_segmented cs
  exact ⟨segs, fun other => ⟨h.unique, fun heq => heq ▸ h⟩⟩

end Template

end Inclusion
