import Inclusion.Proofs.Template.Bytes
import Inclusion.Proofs.Template.Opening
import Inclusion.Proofs.Token.Written
/-!
# The blocks of a template

The blocks that are found for some tags are the blocks among the segments of the template whose first word is one of the
tags, in their order (`blocks_of_segments`). They lie apart, none begins inside another segment, and more tags only add
blocks to them.
-/

namespace Inclusion

namespace Template

/-! ### The first word of a block -/

/-- A text is a block whose first word is the tag: behind the opening, which can have a sign, there are only spaces before
the word, and the word does not go on. -/
inductive LeadingWord (tag : String) : List Char → Prop
  | mk {sign spaces rest : List Char} (hsign : sign = [] ∨ sign = ['-'] ∨ sign = ['~'])
    (hspaces : ∀ c ∈ spaces, isSpace c = true) (hne : tag ≠ "") (hword : ∀ c ∈ tag.toList, isWordChar c = true)
    (hrest : ∀ c ∈ rest.head?, isWordChar c = false) :
    LeadingWord tag ('{' :: '%' :: (sign ++ (spaces ++ (tag.toList ++ rest))))

theorem head?_dropWhile {p : Char → Bool} {cs : List Char} {c : Char} (h : c ∈ (cs.dropWhile p).head?) : p c = false := by
  have hnot := List.head?_dropWhile_not p cs
  rwa [Option.mem_def.mp h] at hnot

/-- A sign stands before neither a space nor a word. -/
theorem signOf_append {sign body : List Char} (hsign : sign = [] ∨ sign = ['-'] ∨ sign = ['~'])
    (hbody : ∀ c ∈ body.head?, c ≠ '-' ∧ c ≠ '~') : signOf (sign ++ body) = sign := by
  rcases hsign with rfl | rfl | rfl
  · rw [List.nil_append]
    cases body with
    | nil => rfl
    | cons c body =>
      obtain ⟨hminus, htilde⟩ := hbody c rfl
      unfold signOf
      split
      · next heq => exact absurd (List.cons.inj heq).1 hminus
      · next heq => exact absurd (List.cons.inj heq).1 htilde
      · rfl
  · rfl
  · rfl

theorem ne_sign_of_isSpace {c : Char} (h : isSpace c = true) : c ≠ '-' ∧ c ≠ '~' := by
  constructor <;> rintro rfl <;> exact absurd h (by decide)

theorem ne_sign_of_isWordChar {c : Char} (h : isWordChar c = true) : c ≠ '-' ∧ c ≠ '~' := by
  constructor <;> rintro rfl <;> exact absurd h (by decide)

theorem firstWord_eq_some_iff {r : List Char} {tag : String} :
    firstWord ('{' :: '%' :: r) = some tag ↔ LeadingWord tag ('{' :: '%' :: r) := by
  rw [firstWord_opening]
  constructor
  · intro h
    generalize hword : (trimStart (afterSign r)).takeWhile isWordChar = word at h
    cases word with
    | nil => cases h
    | cons c word =>
      obtain rfl := Option.some.inj h
      have hr : r = signOf r ++ ((afterSign r).takeWhile isSpace ++ ((String.ofList (c :: word)).toList ++
          (trimStart (afterSign r)).dropWhile isWordChar)) := by
        rw [String.toList_ofList, ← hword, List.takeWhile_append_dropWhile, trimStart, List.takeWhile_append_dropWhile,
          signOf_append_afterSign]
      rw [hr]
      refine .mk (signOf_cases r) (fun d hd => List.mem_takeWhile_imp hd) (by simp) ?_ (fun d hd => head?_dropWhile hd)
      rw [String.toList_ofList, ← hword]
      exact fun d hd => List.mem_takeWhile_imp hd
  · intro h
    generalize htext : '{' :: '%' :: r = text at h
    cases h with
    | @mk sign spaces rest hsign hspaces hne hword hrest =>
      obtain rfl : r = sign ++ (spaces ++ (tag.toList ++ rest)) := by simpa using htext
      obtain ⟨c, word, hcons⟩ := List.exists_cons_of_ne_nil fun hnil => hne (String.toList_eq_nil_iff.mp hnil)
      have hc : isWordChar c = true := hword c (hcons ▸ List.mem_cons_self)
      have hhead : ∀ d ∈ (spaces ++ (tag.toList ++ rest)).head?, d ≠ '-' ∧ d ≠ '~' := by
        intro d hd
        cases spaces with
        | nil =>
          rw [List.nil_append, hcons, List.cons_append, List.head?_cons, Option.mem_some_iff] at hd
          exact hd ▸ ne_sign_of_isWordChar hc
        | cons e spaces =>
          rw [List.cons_append, List.head?_cons, Option.mem_some_iff] at hd
          exact hd ▸ ne_sign_of_isSpace (hspaces e List.mem_cons_self)
      have htrim : trimStart (spaces ++ (tag.toList ++ rest)) = tag.toList ++ rest := by
        rw [trimStart, List.dropWhile_append_of_pos hspaces, hcons, List.cons_append,
          List.dropWhile_cons_of_neg (by simp [Lexer.isSpace_eq_false_of_isWordChar hc])]
      rw [afterSign, signOf_append hsign hhead, List.drop_left, htrim, Lexer.takeWhile_append_stop hword hrest]
      rw [hcons, ← String.ofList_toList (s := tag), hcons]

/-! ### Blocks among segments -/

variable {tags more : List String} {cs : List Char} {segs : List (Kind × List Char)}

theorem mem_blocksFrom_iff {start : Nat} {b : Block} : b ∈ blocksFrom tags start segs ↔
    firstWord b.text = some b.tag ∧ b.tag ∈ tags ∧ ∃ before after, segs = before ++ (.block, b.text) :: after ∧
      b.start = start + byteLength (before.flatMap Prod.snd) := by
  constructor
  · exact exists_of_mem_blocksFrom
  · rintro ⟨hword, htag, before, after, rfl, hstart⟩
    induction before generalizing start with
    | nil =>
      rw [List.nil_append, blocksFrom_block hword htag]
      obtain ⟨tag, text, place⟩ := b
      obtain rfl : place = start := hstart
      exact List.mem_cons_self
    | cons p before ih =>
      rw [List.flatMap_cons, byteLength_append, ← Nat.add_assoc] at hstart
      rw [List.cons_append, blocksFrom_cons_eq_append]
      exact List.mem_append_right _ (ih hstart)

/-- More tags add blocks and change none. -/
theorem blocksFrom_filter (h : tags ⊆ more) (start : Nat) (ps : List (Kind × List Char)) :
    blocksFrom tags start ps = (blocksFrom more start ps).filter fun b => b.tag ∈ tags := by
  induction ps generalizing start with
  | nil => rfl
  | cons p ps ih =>
    have hsingle : blocksFrom tags start [p] = (blocksFrom more start [p]).filter fun b => b.tag ∈ tags := by
      obtain ⟨kind, text⟩ := p
      cases kind with
      | plain => rfl
      | comment => rfl
      | block =>
        rw [blocksFrom_singleton, blocksFrom_singleton]
        cases firstWord text with
        | none => rfl
        | some tag =>
          by_cases htag : tag ∈ tags
          · simp [htag, h htag]
          · by_cases hmore : tag ∈ more <;> simp [htag, hmore]
    rw [blocksFrom_cons_eq_append, blocksFrom_cons_eq_append more, List.filter_append, hsingle, ih]

theorem LeadingWord.firstWord {tag : String} {text : List Char} (h : LeadingWord tag text) :
    Template.firstWord text = some tag := by
  have hword := h
  cases h
  exact firstWord_eq_some_iff.mpr hword

/-- The blocks with one of the tags are those among the segments. -/
theorem mem_blocks_iff (h : Segmented cs segs) {b : Block} : b ∈ blocks tags cs ↔
    ∃ before after, segs = before ++ (.block, b.text) :: after ∧ b.start = byteLength (before.flatMap Prod.snd) ∧
      LeadingWord b.tag b.text ∧ b.tag ∈ tags := by
  constructor
  · intro hb
    obtain ⟨hword, -, ⟨r, hr⟩, -⟩ := exists_of_mem_blocks hb
    rw [blocks, blocksFrom_pieces h, mem_blocksFrom_iff] at hb
    obtain ⟨-, htag, before, after, hsegs, hstart⟩ := hb
    rw [hr, firstWord_eq_some_iff, ← hr] at hword
    exact ⟨before, after, hsegs, by rw [hstart, Nat.zero_add], hword, htag⟩
  · rintro ⟨before, after, hsegs, hstart, hword, htag⟩
    rw [blocks, blocksFrom_pieces h, mem_blocksFrom_iff]
    exact ⟨hword.firstWord, htag, before, after, hsegs, by rw [hstart, Nat.zero_add]⟩

theorem byteLength_flatMap_le {before before' : List (Kind × List Char)} (h : before <+: before') :
    byteLength (before.flatMap Prod.snd) ≤ byteLength (before'.flatMap Prod.snd) := by
  obtain ⟨after, rfl⟩ := h
  rw [List.flatMap_append, byteLength_append]
  exact Nat.le_add_right _ _

/-- No segment begins inside another one. -/
theorem not_inside {before before' after after' : List (Kind × List Char)} {seg seg' : Kind × List Char}
    (h : before ++ seg :: after = before' ++ seg' :: after') :
    byteLength (before'.flatMap Prod.snd) ≤ byteLength (before.flatMap Prod.snd) ∨
      byteLength ((before ++ [seg]).flatMap Prod.snd) ≤ byteLength (before'.flatMap Prod.snd) := by
  have hseg : before ++ [seg] <+: before' ++ seg' :: after' := ⟨after, by rw [← h, ← List.append_cons]⟩
  rcases List.prefix_or_prefix_of_prefix hseg (List.prefix_append before' _) with hprefix | hprefix
  · exact .inr (byteLength_flatMap_le hprefix)
  · rcases List.prefix_concat_iff.mp hprefix with heq | hprefix
    · exact .inr (Nat.le_of_eq (by rw [heq]))
    · exact .inl (byteLength_flatMap_le hprefix)

theorem slice?_span {b : Block} (h : b ∈ blocks tags cs) : slice? cs b.span = some b.text := by
  obtain ⟨-, -, -, before, after, hcs, hstart⟩ := exists_of_mem_blocks h
  refine slice?_eq_some_iff.mpr ⟨before, after, hcs, ?_⟩
  rw [Block.span, hstart, byteLength_append]

theorem span_start_lt_stop {b : Block} (h : b ∈ blocks tags cs) : b.span.start < b.span.stop := by
  obtain ⟨-, -, ⟨r, hr⟩, -⟩ := exists_of_mem_blocks h
  have hlength := length_le_byteLength b.text
  rw [hr] at hlength
  simp only [List.length_cons] at hlength
  simp only [Block.span, hr]
  omega

/-- The segments of a template are determined and make it up, and its blocks with one of the tags are the blocks among the
segments whose first word is the tag. They come one after another, none of them begins inside a comment or another block,
and each is the piece of the template at its place. A scan of the bytes finds them, too, and every piece that it cuts out
begins and ends between two characters. With more tags the blocks with one of the first tags stay the same. -/
theorem blocks_of_segments (tags : List String) (cs : List Char) :
    ∃ segs, (∀ other, Segmented cs other ↔ other = segs) ∧ segs.flatMap Prod.snd = cs ∧
      (∀ b, b ∈ blocks tags cs ↔ ∃ before after, segs = before ++ (.block, b.text) :: after ∧
        b.start = byteLength (before.flatMap Prod.snd) ∧ LeadingWord b.tag b.text ∧ b.tag ∈ tags) ∧
      (blocks tags cs).Pairwise (fun a b => a.span.stop ≤ b.span.start) ∧
      (∀ b ∈ blocks tags cs, b.span.start < b.span.stop ∧ slice? cs b.span = some b.text ∧
        ∀ before seg after, segs = before ++ seg :: after →
          b.start ≤ byteLength (before.flatMap Prod.snd) ∨ byteLength ((before ++ [seg]).flatMap Prod.snd) ≤ b.start) ∧
      blocksAt tags cs 0 = some ((blocks tags cs).map fun b => (b.tag, b.span)) ∧
      ∀ more, tags ⊆ more → blocks tags cs = (blocks more cs).filter fun b => b.tag ∈ tags := by
  obtain ⟨segs, hsegs⟩ := exists_segmented_iff cs
  have h : Segmented cs segs := (hsegs segs).mpr rfl
  refine ⟨segs, hsegs, h.flatMap_snd, fun b => mem_blocks_iff h, pairwise_blocksFrom tags 0 (pieces cs), fun b hb => ?_,
    blocksAt_eq tags [] cs, fun more hmore => blocksFrom_filter hmore 0 (pieces cs)⟩
  refine ⟨span_start_lt_stop hb, slice?_span hb, fun before seg after heq => ?_⟩
  obtain ⟨before', after', heq', hstart, -⟩ := (mem_blocks_iff h).mp hb
  rw [hstart]
  exact not_inside (heq.symm.trans heq')

/-- The opening of a comment is no part of its closing, so this comment goes on to the end. -/
example : blocks ["render"] "\x7b#\x7d\x7b% render %\x7d".toList = [] := by decide +kernel

end Template

end Inclusion
