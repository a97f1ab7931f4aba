import Inclusion.Report
import Mathlib.Data.List.Basic
/-!
# Lines and columns

The line and the column of a character, both counted from one, are found by walking over the text (`position`). The lines
that a text is split into follow one another without gaps, and the line that an offset is on gives the same numbers
(`exists_position`).
-/

namespace Inclusion

namespace Report

variable {cs : List Char} {i j n start : Nat} {texts : List (List Char)} {l m : Line}

/-- A line ends behind the character. Before a line feed, a carriage return does not end it yet. -/
def endsLine (c : Char) (rest : List Char) : Bool :=
  isLineEnd c && !(c = '\r' ∧ rest.head? = some '\n')

/-- The line and the column of the character with an index, if the text begins at a line and a column. -/
def positionFrom (line column : Nat) : List Char → Nat → Nat × Nat
  | c :: cs, i + 1 => if endsLine c cs then positionFrom (line + 1) 1 cs i else positionFrom line (column + 1) cs i
  | _, _ => (line, column)

def position (cs : List Char) (i : Nat) : Nat × Nat :=
  positionFrom 1 1 cs i

/-! ### The lines of a text -/

theorem flatten_splitLines (cs : List Char) : (splitLines cs).flatten = cs := by
  fun_induction splitLines cs with
  | case1 => rfl
  | case2 rest ih => simp [ih]
  | case3 c rest _ _ ih => simp [ih]
  | case4 c rest _ _ hrest ih =>
    rw [hrest] at ih
    rw [← ih]
    rfl
  | case5 c rest _ _ line lines hrest ih =>
    rw [hrest] at ih
    rw [← ih]
    rfl

/-- One line comes before another. -/
def Line.Before (l m : Line) : Prop :=
  l.number < m.number ∧ l.stop ≤ m.start

theorem le_of_mem_numberLines (h : l ∈ numberLines n start texts) : n ≤ l.number ∧ start ≤ l.start := by
  induction texts generalizing n start with
  | nil => cases h
  | cons text texts ih =>
    cases List.mem_cons.mp h with
    | inl h => exact h ▸ ⟨Nat.le_refl n, Nat.le_refl start⟩
    | inr h =>
      obtain ⟨hnumber, hstart⟩ := ih h
      omega

theorem stop_le_of_mem_numberLines (h : l ∈ numberLines n start texts) : l.stop ≤ start + texts.flatten.length := by
  induction texts generalizing n start with
  | nil => cases h
  | cons text texts ih =>
    rw [List.flatten_cons, List.length_append]
    cases List.mem_cons.mp h with
    | inl h =>
      rw [h, Line.stop]
      dsimp only
      omega
    | inr h =>
      have hstop := ih h
      omega

theorem pairwise_numberLines (n start : Nat) (texts : List (List Char)) :
    (numberLines n start texts).Pairwise Line.Before := by
  induction texts generalizing n start with
  | nil => exact .nil
  | cons text texts ih =>
    refine List.pairwise_cons.mpr ⟨fun l hl => ?_, ih _ _⟩
    obtain ⟨hnumber, hstart⟩ := le_of_mem_numberLines hl
    exact ⟨hnumber, hstart⟩

theorem stop_le_length (h : l ∈ lines cs) : l.stop ≤ cs.length := by
  have hstop := stop_le_of_mem_numberLines h
  rwa [flatten_splitLines, Nat.zero_add] at hstop

/-! ### The line of a character -/

/-- The character at an offset is on the line, and is at the position. On the line with the number `n` columns are counted
from `column`, on the others from one. -/
structure Line.Holds (l : Line) (n column offset : Nat) (p : Nat × Nat) : Prop where
  start_le : l.start ≤ offset
  lt_stop : offset < l.stop
  number : p.1 = l.number
  column : p.2 + l.start = offset + if l.number = n then column else 1

theorem Line.holds_first {text : List Char} (column : Nat) (hi : i < text.length) :
    Line.Holds ⟨n, start, text⟩ n column (start + i) (n, column + i) where
  start_le := Nat.le_add_right start i
  lt_stop := Nat.add_lt_add_left hi start
  number := rfl
  column := by
    show column + i + start = start + i + if n = n then column else 1
    rw [if_pos rfl]
    omega

/-- On a later line it does not matter from where the columns of the first one are counted. -/
theorem exists_holds_of_tail {text : List Char} {offset : Nat} {p : Nat × Nat} (column : Nat)
    (h : ∃ l ∈ numberLines (n + 1) (start + text.length) texts, l.Holds (n + 1) 1 offset p) :
    ∃ l ∈ numberLines n start (text :: texts), l.Holds n column offset p := by
  obtain ⟨l, hmem, hholds⟩ := h
  have hnumber := (le_of_mem_numberLines hmem).1
  refine ⟨l, List.mem_cons_of_mem _ hmem, hholds.start_le, hholds.lt_stop, hholds.number, ?_⟩
  have hcolumn := hholds.column
  rw [ite_self] at hcolumn
  rw [if_neg (Nat.ne_of_gt hnumber), hcolumn]

/-- A character before the first line shifts its columns by one. -/
theorem exists_holds_of_cons {c : Char} {text : List Char} {offset : Nat} {p : Nat × Nat} (column : Nat)
    (h : ∃ l ∈ numberLines n (start + 1) (text :: texts), l.Holds n (column + 1) offset p) :
    ∃ l ∈ numberLines n start ((c :: text) :: texts), l.Holds n column offset p := by
  obtain ⟨l, hmem, hstart, hstop, hnumber, hcolumn⟩ := h
  cases List.mem_cons.mp hmem with
  | inl hfirst =>
    subst hfirst
    have hlength : offset < start + 1 + text.length := hstop
    refine ⟨_, List.mem_cons_self, Nat.le_of_succ_le hstart, ?_, hnumber, ?_⟩
    · show offset < start + (c :: text).length
      rw [List.length_cons]
      omega
    · rw [if_pos rfl] at hcolumn ⊢
      show p.2 + start = offset + column
      dsimp only at hcolumn
      omega
  | inr hmem =>
    have hlater : l.number ≠ n := Nat.ne_of_gt (le_of_mem_numberLines hmem).1
    refine ⟨l, List.mem_cons_of_mem _ ?_, hstart, hstop, hnumber, ?_⟩
    · rwa [List.length_cons, Nat.add_comm text.length, ← Nat.add_assoc]
    · rwa [if_neg hlater] at hcolumn ⊢

theorem endsLine_of_isLineEnd {c : Char} {rest : List Char} (hcrlf : ∀ others, c = '\r' → rest = '\n' :: others → False)
    (hend : isLineEnd c = true) : endsLine c rest = true := by
  rw [endsLine, hend, Bool.true_and, Bool.not_eq_true', decide_eq_false_iff_not]
  rintro ⟨hreturn, hfeed⟩
  obtain ⟨others, hrest⟩ := List.head?_eq_some_iff.mp hfeed
  exact hcrlf others hreturn hrest

theorem exists_holds (n start column : Nat) (hi : i < cs.length) :
    ∃ l ∈ numberLines n start (splitLines cs), l.Holds n column (start + i) (positionFrom n column cs i) := by
  fun_induction splitLines cs generalizing n start column i with
  | case1 => cases hi
  | case2 rest ih =>
    match i with
    | 0 => exact ⟨_, List.mem_cons_self, Line.holds_first column (by decide)⟩
    | 1 => exact ⟨_, List.mem_cons_self, Line.holds_first column (by decide)⟩
    | i + 2 =>
      apply exists_holds_of_tail
      have hrest := ih (n + 1) (start + 2) 1 (Nat.lt_of_add_lt_add_right hi)
      rw [Nat.add_assoc, Nat.add_comm 2] at hrest
      exact hrest
  | case3 c rest hcrlf hend ih =>
    cases i with
    | zero => exact ⟨_, List.mem_cons_self, Line.holds_first column Nat.one_pos⟩
    | succ i =>
      apply exists_holds_of_tail
      have hrest := ih (n + 1) (start + 1) 1 (Nat.lt_of_succ_lt_succ hi)
      rw [positionFrom, if_pos (endsLine_of_isLineEnd hcrlf hend), ← Nat.add_assoc, Nat.add_right_comm]
      exact hrest
  | case4 c rest hcrlf hend hrest ih =>
    have hnil := flatten_splitLines rest
    rw [hrest] at hnil
    subst hnil
    obtain rfl : i = 0 := Nat.lt_one_iff.mp hi
    exact ⟨_, List.mem_cons_self, Line.holds_first column Nat.one_pos⟩
  | case5 c rest hcrlf hend line others hrest ih =>
    cases i with
    | zero => exact ⟨_, List.mem_cons_self, Line.holds_first column (Nat.succ_pos _)⟩
    | succ i =>
      apply exists_holds_of_cons
      have hrest' := ih n (start + 1) (column + 1) (Nat.lt_of_succ_lt_succ hi)
      have hplain : ¬ endsLine c rest = true := fun h => hend (Bool.and_eq_true_iff.mp h).1
      rw [hrest, Nat.add_right_comm, Nat.add_assoc] at hrest'
      rw [positionFrom, if_neg hplain]
      exact hrest'

/-- Every character is on a line, which has its line number and starts as many characters before it as its column says. -/
theorem exists_position (hi : i < cs.length) : ∃ l ∈ lines cs, l.start ≤ i ∧ i < l.stop ∧
    position cs i = (l.number, i - l.start + 1) := by
  obtain ⟨l, hmem, hholds⟩ := exists_holds 1 0 1 hi
  rw [Nat.zero_add] at hholds
  have hcolumn := hholds.column
  have hstart := hholds.start_le
  rw [ite_self] at hcolumn
  refine ⟨l, hmem, hstart, hholds.lt_stop, Prod.ext hholds.number ?_⟩
  show (positionFrom 1 1 cs i).2 = i - l.start + 1
  omega

/-! ### The line of an offset -/

/-- The line of an offset is the last one that starts at it or before. -/
theorem before_of_lineAt (h : lineAt cs i = some l) : l ∈ lines cs ∧ l.start ≤ i ∧ i ≤ cs.length ∧
    ∀ m ∈ lines cs, m.start ≤ i → m = l ∨ m.Before l := by
  rw [lineAt] at h
  split at h
  · next hi =>
    obtain ⟨front, hfilter⟩ := List.getLast?_eq_some_iff.mp h
    have hl : l ∈ (lines cs).filter fun l => l.start ≤ i := by simp [hfilter]
    obtain ⟨hmem, hstart⟩ := List.mem_filter.mp hl
    refine ⟨hmem, of_decide_eq_true hstart, hi, fun m hm hle => ?_⟩
    have hsorted := (pairwise_numberLines 1 0 (splitLines cs)).filter fun l => decide (l.start ≤ i)
    have hm' : m ∈ (lines cs).filter fun l => l.start ≤ i := List.mem_filter.mpr ⟨hm, decide_eq_true hle⟩
    rw [← lines, hfilter] at hsorted
    rw [hfilter] at hm'
    cases List.mem_append.mp hm' with
    | inl hm => exact .inr ((List.pairwise_append.mp hsorted).2.2 m hm l List.mem_cons_self)
    | inr hm => exact .inl (List.mem_singleton.mp hm)
  · cases h

theorem exists_lineAt (hne : cs ≠ []) (hi : i ≤ cs.length) : ∃ l, lineAt cs i = some l := by
  obtain ⟨first, hmem, hstart, -⟩ := exists_position (List.length_pos_iff.mpr hne)
  have hfirst : first ∈ (lines cs).filter fun l => l.start ≤ i :=
    List.mem_filter.mpr ⟨hmem, decide_eq_true (Nat.le_trans hstart (Nat.zero_le i))⟩
  rw [lineAt, if_pos hi]
  exact ⟨_, List.getLast?_eq_some_getLast (List.ne_nil_of_mem hfirst)⟩

/-- The line that a character is on is that of its offset. -/
theorem eq_of_lineAt (h : lineAt cs i = some l) (hm : m ∈ lines cs) (hstart : m.start ≤ i) (hstop : i < m.stop) : m = l := by
  obtain ⟨hl, hle, -, hbefore⟩ := before_of_lineAt h
  rcases hbefore m hm hstart with heq | hbefore
  · exact heq
  · exact absurd (Nat.lt_of_lt_of_le hstop hbefore.2) (Nat.not_lt.mpr hle)

/-- No offset but its own has the line and the column of a character. -/
theorem eq_of_position (h : lineAt cs j = some l) (hi : i < cs.length) (hij : i ≤ j)
    (hposition : position cs i = (l.number, j - l.start + 1)) : j = i ∧ j < l.stop := by
  obtain ⟨m, hm, hstart, hstop, hposition'⟩ := exists_position hi
  obtain ⟨-, hle, -, hbefore⟩ := before_of_lineAt h
  obtain ⟨hline, hcolumn⟩ := Prod.mk.inj (hposition'.symm.trans hposition)
  rcases hbefore m hm (Nat.le_trans hstart hij) with rfl | hbefore
  · omega
  · exact absurd hline (Nat.ne_of_lt hbefore.1)

end Report

end Inclusion
