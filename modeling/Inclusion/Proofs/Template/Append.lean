import Inclusion.Proofs.Template.Segments
/-!
# A template after another text

A text before a template leaves the blocks of the template as they are, if all that begins in the text is closed in it
and the text does not end in a brace that would open something together with what follows (`blocks_append`).
-/

namespace Inclusion

namespace Template

/-- The block in a template with `n` bytes put before it. -/
def Block.shift (b : Block) (n : Nat) : Block :=
  ⟨b.tag, b.text, b.start + n⟩

@[simp] theorem Block.span_shift (b : Block) (n : Nat) : (b.shift n).span = b.span.shift n := by
  simp only [shift, span, Span.shift, Nat.add_right_comm]

theorem blocksFrom_add (tags : List String) (start n : Nat) (ps : List (Kind × List Char)) :
    blocksFrom tags (start + n) ps = (blocksFrom tags start ps).map fun b => b.shift n := by
  induction ps generalizing start with
  | nil => rfl
  | cons p ps ih =>
    have hstop : start + n + byteLength p.2 = start + byteLength p.2 + n := Nat.add_right_comm start n _
    have hsingle : blocksFrom tags (start + n) [p] = (blocksFrom tags start [p]).map fun b => b.shift n := by
      rw [blocksFrom.eq_def, blocksFrom.eq_def tags start [p]]
      dsimp only
      split
      · split <;> rfl
      · rfl
    rw [blocksFrom_cons_eq_append, blocksFrom_cons_eq_append tags start, List.map_append, hsingle, hstop, ih]

/-! ### Segments that are closed -/

/-- What begins with the segment ends with it, by a closing of its own. -/
inductive Closed : Kind × List Char → Prop
  | plain (text : List Char) : Closed (.plain, text)
  | comment (body : List Char) : Closed (.comment, '{' :: '#' :: (body ++ ['#', '}']))
  | block {body : List Char} (h : Balanced body) : Closed (.block, '{' :: '%' :: (body ++ ['%', '}']))

variable {body inner more : List Char} {k m n : Nat}

/-- Two characters that stand in the first of two texts. -/
theorem prefix_drop_append_iff {c d : Char} (hk : k + 2 ≤ body.length) (more : List Char) :
    [c, d] <+: (body ++ more).drop k ↔ [c, d] <+: body.drop k := by
  rw [List.drop_append_of_le_length (by omega)]
  constructor
  · intro h
    refine List.prefix_of_prefix_length_le h (List.prefix_append _ _) ?_
    simp only [List.length_cons, List.length_nil, List.length_drop]
    omega
  · exact fun h => h.trans (List.prefix_append _ _)

theorem commentClosesAt_append (hk : k + 2 ≤ body.length) (more : List Char) :
    CommentClosesAt (body ++ more) k ↔ CommentClosesAt body k :=
  prefix_drop_append_iff hk more

theorem blockClosesAt_append (hk : k + 2 ≤ body.length) (more : List Char) :
    BlockClosesAt none (body ++ more) k ↔ BlockClosesAt none body k := by
  rw [BlockClosesAt, BlockClosesAt, prefix_drop_append_iff hk, List.take_append_of_le_length (by omega)]

/-- What is closed is closed at the same place, whatever follows. -/
theorem RunsTo.of_agree {closesAt closesAt' : Nat → Prop} {length length' : Nat} (h : RunsTo closesAt length n)
    (hclosed : closesAt m) (hn : m + 2 = n) (hagree : ∀ k, k + 2 ≤ n → (closesAt' k ↔ closesAt k)) :
    RunsTo closesAt' length' n := by
  cases h with
  | toEnd hnone => exact absurd hclosed (hnone m)
  | closed h hfirst =>
    refine .closed ((hagree _ (Nat.le_refl _)).mpr h) fun k hk hclose => hfirst k hk ?_
    exact (hagree k (by omega)).mp hclose

theorem RunsTo.le {closesAt : Nat → Prop} {length : Nat} (h : RunsTo closesAt length n)
    (hbound : ∀ k, closesAt k → k + 2 ≤ length) : n ≤ length := by
  cases h with
  | toEnd => exact Nat.le_refl _
  | closed h _ => exact hbound _ h

theorem add_two_le_of_prefix_drop {c d : Char} (h : [c, d] <+: body.drop k) : k + 2 ≤ body.length := by
  have hlength := h.length_le
  simp only [List.length_cons, List.length_nil, List.length_drop] at hlength
  omega

theorem length_of_take_eq {close : List Char} (h : body.take n = inner ++ close) (hne : n ≤ body.length) :
    inner.length + close.length = n := by
  have hlength := congrArg List.length h
  rw [List.length_take_of_le hne, List.length_append] at hlength
  exact hlength.symm

/-- The closing stands behind what is inside. -/
theorem drop_eq_of_take_eq {close : List Char} (h : body.take n = inner ++ close) :
    body.drop inner.length = close ++ body.drop n := by
  conv => lhs; rw [← List.take_append_drop n body, h, List.append_assoc]
  exact List.drop_left

theorem RunsTo.comment_append (h : RunsTo (CommentClosesAt body) body.length n)
    (hclosed : body.take n = inner ++ ['#', '}']) (more : List Char) :
    RunsTo (CommentClosesAt (body ++ more)) (body ++ more).length n := by
  have hle : n ≤ body.length := h.le fun k hk => add_two_le_of_prefix_drop hk
  refine h.of_agree (m := inner.length) ?_ (length_of_take_eq hclosed hle) fun k hk => commentClosesAt_append (by omega) more
  rw [CommentClosesAt, drop_eq_of_take_eq hclosed]
  exact List.prefix_append _ _

theorem RunsTo.block_append (h : RunsTo (BlockClosesAt none body) body.length n)
    (hclosed : body.take n = inner ++ ['%', '}']) (hinner : Balanced inner) (more : List Char) :
    RunsTo (BlockClosesAt none (body ++ more)) (body ++ more).length n := by
  have hle : n ≤ body.length := h.le fun k hk => add_two_le_of_prefix_drop hk.2
  have hn := length_of_take_eq hclosed hle
  have htake : body.take inner.length = inner := by
    have hfirst := congrArg (List.take inner.length) hclosed
    rwa [List.take_take, Nat.min_eq_left (by omega), List.take_left] at hfirst
  refine h.of_agree (m := inner.length) ⟨?_, ?_⟩ hn fun k hk => blockClosesAt_append (by omega) more
  · rw [htake]
    exact hinner
  · rw [drop_eq_of_take_eq hclosed]
    exact List.prefix_append _ _

/-! ### The blocks of a text and of what follows it -/

/-- The text does not end in a brace outside its comments and blocks. -/
def EndsApart (segs : List (Kind × List Char)) : Prop :=
  ∀ text, segs.getLast? = some (.plain, text) → text.getLast? ≠ some '{'

theorem EndsApart.tail {seg : Kind × List Char} {segs : List (Kind × List Char)} (h : EndsApart (seg :: segs)) :
    EndsApart segs := by
  intro text htext
  apply h
  rw [List.getLast?_cons, htext]
  rfl

/-- Nothing begins at the end of a text and goes on after it. -/
theorem not_opens_append {text rest : List Char} (hnone : ∀ n < text.length, ¬ Opens ((text ++ rest).drop n))
    (hend : rest = [] → text.getLast? ≠ some '{') (more : List Char) :
    ∀ n < text.length, ¬ Opens ((text ++ (rest ++ more)).drop n) := by
  intro n hn hopens
  rw [← List.append_assoc] at hopens
  by_cases htwo : n + 2 ≤ (text ++ rest).length
  · refine hnone n hn ?_
    rwa [Opens, prefix_drop_append_iff htwo, prefix_drop_append_iff htwo] at hopens
  · rw [List.length_append] at htwo
    obtain rfl : rest = [] := List.length_eq_zero_iff.mp (by omega)
    have hlast : text.getLast? = some text[n] := by
      rw [List.getLast?_eq_getElem?, List.getElem?_eq_some_iff]
      have hn' : text.length - 1 = n := by omega
      exact ⟨by omega, by simp only [hn']⟩
    rw [List.append_nil, List.drop_append_of_le_length (Nat.le_of_lt hn), List.drop_eq_getElem_cons hn,
      List.cons_append] at hopens
    have hbrace : '{' = text[n] := by
      rcases hopens with hopens | hopens
      · exact (List.cons_prefix_cons.mp hopens).1
      · exact (List.cons_prefix_cons.mp hopens).1
    exact hend rfl (hbrace ▸ hlast)

section

variable {tags : List String} {cs ds rest : List Char} {segs : List (Kind × List Char)}

/-- The blocks of a text are apart from those of what follows it. -/
def Apart (tags : List String) (cs ds : List Char) : Prop :=
  ∀ start, blocksFrom tags start (pieces (cs ++ ds)) =
    blocksFrom tags start (pieces cs) ++ blocksFrom tags (start + byteLength cs) (pieces ds)

/-- A first piece that does not depend on what follows. -/
theorem Apart.cons {p : Kind × List Char} (hcs : cs = p.2 ++ rest) (hpieces : pieces cs = p :: pieces rest)
    (happend : pieces (cs ++ ds) = p :: pieces (rest ++ ds)) (h : Apart tags rest ds) : Apart tags cs ds := by
  intro start
  have hlength : start + byteLength cs = start + byteLength p.2 + byteLength rest := by
    rw [hcs, byteLength_append, Nat.add_assoc]
  rw [happend, hpieces, blocksFrom_cons_eq_append, h, hlength, ← List.append_assoc, ← blocksFrom_cons_eq_append]

/-- A text in front in which nothing begins, whatever follows. -/
theorem Apart.text {text : List Char} (hnone : ∀ n < text.length, ¬ Opens ((text ++ rest).drop n))
    (hnone' : ∀ n < text.length, ¬ Opens ((text ++ (rest ++ ds)).drop n)) (h : Apart tags rest ds) :
    Apart tags (text ++ rest) ds := by
  intro start
  rw [List.append_assoc, blocksFrom_text hnone', blocksFrom_text hnone, h, byteLength_append, Nat.add_assoc]

theorem apart_of_closed (h : Segmented cs segs) (hclosed : ∀ seg ∈ segs, Closed seg) (hend : EndsApart segs)
    (ds : List Char) : Apart tags cs ds := by
  induction h with
  | nil =>
    intro start
    rw [pieces]
    rfl
  | @comment body n segs h hrest ih =>
    obtain ⟨hseg, hsegs⟩ := List.forall_mem_cons.mp hclosed
    obtain ⟨inner, hinner⟩ : ∃ inner, body.take n = inner ++ ['#', '}'] := by
      generalize htext : body.take n = text at hseg
      cases hseg with
      | comment inner => exact ⟨inner, rfl⟩
    have hle : n ≤ body.length := h.le fun k hk => add_two_le_of_prefix_drop hk
    have happend := pieces_comment_of_runsTo (h.comment_append hinner ds)
    rw [List.take_append_of_le_length hle, List.drop_append_of_le_length hle] at happend
    refine Apart.cons ?_ (pieces_comment_of_runsTo h) happend (ih hsegs hend.tail)
    rw [List.cons_append, List.cons_append, List.take_append_drop]
  | @block body n segs h hrest ih =>
    obtain ⟨hseg, hsegs⟩ := List.forall_mem_cons.mp hclosed
    obtain ⟨inner, hinner, hbalanced⟩ : ∃ inner, body.take n = inner ++ ['%', '}'] ∧ Balanced inner := by
      generalize htext : body.take n = text at hseg
      cases hseg with
      | block hbalanced => exact ⟨_, rfl, hbalanced⟩
    have hle : n ≤ body.length := h.le fun k hk => add_two_le_of_prefix_drop hk.2
    have happend := pieces_block_of_runsTo (h.block_append hinner hbalanced ds)
    rw [List.take_append_of_le_length hle, List.drop_append_of_le_length hle] at happend
    refine Apart.cons ?_ (pieces_block_of_runsTo h) happend (ih hsegs hend.tail)
    rw [List.cons_append, List.cons_append, List.take_append_drop]
  | @text text rest segs hne hnone hnext hrest ih =>
    obtain ⟨-, hsegs⟩ := List.forall_mem_cons.mp hclosed
    refine Apart.text hnone (not_opens_append hnone (fun hnil => ?_) ds) (ih hsegs hend.tail)
    subst hnil
    rw [hrest.eq_nil] at hend
    exact hend text rfl

end

/-- If every comment and every block that begins in a text is closed in it, and the text does not end in a brace outside
them, then the blocks of the text and what follows it are those of the text and then those of what follows, each at its
place behind the text. -/
theorem blocks_append (tags : List String) {cs : List Char} {segs : List (Kind × List Char)} (h : Segmented cs segs)
    (hclosed : ∀ seg ∈ segs, Closed seg) (hend : EndsApart segs) (ds : List Char) :
    blocks tags (cs ++ ds) = blocks tags cs ++ (blocks tags ds).map fun b => b.shift (byteLength cs) := by
  rw [blocks, apart_of_closed h hclosed hend ds, blocksFrom_add]
  rfl

/-- `é{# {% render #}{% if "%}" %}` stands before `{% render "@card" %}`, and all that begins in it is closed. -/
theorem blocks_append_card :
    let front := "é\x7b# \x7b% render #\x7d\x7b% if \"%\x7d\" %\x7d".toList
    let card := "\x7b% render \"@card\" %\x7d".toList
    (∃ segs, Segmented front segs ∧ (∀ seg ∈ segs, Closed seg) ∧ EndsApart segs) ∧
      blocks ["if", "render"] (front ++ card) =
        [⟨"if", "\x7b% if \"%\x7d\" %\x7d".toList, 17⟩, ⟨"render", card, 30⟩] := by
  intro front card
  let comment := [' ', '{', '%', ' ', 'r', 'e', 'n', 'd', 'e', 'r', ' ']
  let block := [' ', 'i', 'f', ' ', '"', '%', '}', '"', ' ']
  let blockText := '{' :: '%' :: (block ++ ['%', '}'])
  have hfront : front = ['é'] ++ '{' :: '#' :: (comment ++ ['#', '}'] ++ blockText) := by decide +kernel
  have hblock : Segmented blockText [(.block, blockText)] := by
    have hruns : RunsTo (BlockClosesAt none (block ++ ['%', '}'])) _ _ := blockLength_runsTo (by simp) _
    have hlength : blockLength none (block ++ ['%', '}']) = (block ++ ['%', '}']).length := by decide +kernel
    rw [hlength] at hruns
    have hsegs : Segmented blockText ((.block, '{' :: '%' :: (block ++ ['%', '}']).take (block ++ ['%', '}']).length) :: []) :=
      .block hruns (by rw [List.drop_length]; exact .nil)
    rwa [List.take_length] at hsegs
  have hcomment : Segmented ('{' :: '#' :: (comment ++ ['#', '}'] ++ blockText))
      [(.comment, '{' :: '#' :: (comment ++ ['#', '}'])), (.block, blockText)] := by
    have hruns := commentLength_runsTo (comment ++ ['#', '}'] ++ blockText)
    have hlength : commentLength (comment ++ ['#', '}'] ++ blockText) = (comment ++ ['#', '}']).length := by decide +kernel
    rw [hlength] at hruns
    have hsegs := Segmented.comment hruns (by rw [List.drop_left]; exact hblock)
    rwa [List.take_left] at hsegs
  have hsegs : Segmented front [(.plain, ['é']), (.comment, '{' :: '#' :: (comment ++ ['#', '}'])), (.block, blockText)] :=
    hfront ▸ .text (by simp) (by decide +kernel) (.inr (.inl ⟨_, rfl⟩)) hcomment
  have hstring : Balanced block :=
    .plain (by decide) (by decide) (.plain (by decide) (by decide) (.plain (by decide) (by decide)
      (.plain (by decide) (by decide) (@Balanced.string '"' ['%', '}'] [' '] (.inl rfl)
        (.plain (by decide) (by decide) (.plain (by decide) (by decide) .nil)) (.plain (by decide) (by decide) .nil)))))
  have hclosed : ∀ seg ∈ [(.plain, ['é']), (.comment, '{' :: '#' :: (comment ++ ['#', '}'])), (.block, blockText)],
      Closed seg := by
    simp only [List.forall_mem_cons]
    exact ⟨.plain _, .comment comment, .block hstring, by simp⟩
  have hend : EndsApart [(.plain, ['é']), (.comment, '{' :: '#' :: (comment ++ ['#', '}'])), (.block, blockText)] := by
    intro text htext
    cases htext
  refine ⟨⟨_, hsegs, hclosed, hend⟩, ?_⟩
  rw [blocks_append _ hsegs hclosed hend]
  decide +kernel

end Template

end Inclusion
