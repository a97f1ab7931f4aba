import Inclusion.Proofs.Token.Lexer
import Inclusion.Proofs.Token.Piece
import Mathlib.Algebra.Group.Nat.Defs
import Mathlib.Data.List.Basic
/-!
# How tokens are written

A text without comments and without rejected pieces is its tokens with blanks between them (`Lexes`). Such a text is
put together from its end: a word, a number, a string or a symbol is put before it, and the only thing to know about
what follows is that it does not make the new token longer. A string can hold any characters, because backslashes and
its quote are escaped.
-/

namespace Inclusion

namespace Lexer

/-- The text is the tokens, with nothing but blanks between them. -/
structure Lexes (cs : List Char) (ts : List Token) : Prop where
  pieces : ∀ p ∈ Lexer.pieces cs, p.kind ≠ .rejected ∧ ¬ p.IsComment
  tokens : (Lexer.pieces cs).filterMap Piece.token? = ts

namespace Lexes

variable {rest : List Char} {t : Token} {ts : List Token}

theorem nil : Lexes [] [] where
  pieces := by simp [Lexer.pieces]
  tokens := by simp [Lexer.pieces]

theorem of_munch {c : Char} (h : Lexes rest ts) (cs : List Char)
    (hmunch : munch c (cs ++ rest) = (.token t, cs.length)) : Lexes (c :: (cs ++ rest)) (t :: ts) := by
  have hpieces : Lexer.pieces (c :: (cs ++ rest)) = ⟨.token t, c :: cs⟩ :: Lexer.pieces rest := by
    rw [pieces_cons, hmunch, List.take_left, List.drop_left]
  constructor
  · rw [hpieces]
    exact List.forall_mem_cons.mpr ⟨⟨by simp, by simp [Piece.IsComment]⟩, h.pieces⟩
  · rw [hpieces, List.filterMap_cons, h.tokens]
    rfl

theorem blank (h : Lexes rest ts) : Lexes (' ' :: rest) ts := by
  obtain ⟨blanks, hblanks, hrest⟩ := exists_blanks rest
  obtain ⟨more, hmore, hall⟩ := exists_blanks (' ' :: rest)
  rw [List.dropWhile_cons_of_pos (by decide)] at hall
  have hnone {ps : List Piece} (hps : ∀ p ∈ ps, p.kind = .skipped ∧ ¬ p.IsComment) : ps.filterMap Piece.token? = [] := by
    refine List.filterMap_eq_nil_iff.mpr fun p hp => ?_
    rw [Piece.token?, (hps p hp).1]
  constructor
  · intro p hp
    rw [hall] at hp
    cases List.mem_append.mp hp with
    | inl hp =>
      obtain ⟨hkind, hcomment⟩ := hmore p hp
      exact ⟨by simp [hkind], hcomment⟩
    | inr hp =>
      apply h.pieces
      rw [hrest]
      exact List.mem_append_right _ hp
  · rw [← h.tokens, hall, hrest, List.filterMap_append, List.filterMap_append, hnone hblanks, hnone hmore]

end Lexes

/-! ### Words -/

/-- A letter or underscore, and then letters, digits and underscores. -/
def isWord : List Char → Bool
  | [] => false
  | c :: cs => isNameStart c && cs.all isWordChar

theorem exists_cons_of_isWord {word : List Char} (h : isWord word = true) :
    ∃ c cs, word = c :: cs ∧ isNameStart c = true ∧ ∀ d ∈ word, isWordChar d = true := by
  cases word with
  | nil => cases h
  | cons c cs =>
    have h' := h
    rw [isWord, Bool.and_eq_true, List.all_eq_true] at h'
    exact ⟨c, cs, rfl, h'.1, List.forall_mem_cons.mpr ⟨isWordChar_of_isNameStart h'.1, h'.2⟩⟩

theorem takeWhile_append_stop {p : Char → Bool} {cs rest : List Char} (h : ∀ c ∈ cs, p c = true)
    (hrest : ∀ c ∈ rest.head?, p c = false) : (cs ++ rest).takeWhile p = cs := by
  have hstop : rest.takeWhile p = [] := by
    cases rest with
    | nil => rfl
    | cons c rest => exact List.takeWhile_cons_of_neg (by simp [hrest c rfl])
  rw [List.takeWhile_append_of_pos h, hstop, List.append_nil]

theorem isBlank_eq_false_of_isNameStart {c : Char} (h : isNameStart c = true) : isBlank c = false := by
  refine Bool.eq_false_iff.mpr fun hblank => ?_
  simp only [isBlank, Bool.or_eq_true, decide_eq_true_eq] at hblank
  rcases hblank with ((rfl | rfl) | rfl) | rfl <;> exact absurd h (by decide)

theorem munch_blank {c : Char} (hc : isBlank c = true) (rest : List Char) :
    munch c rest = (.skipped, (rest.takeWhile isBlank).length) :=
  if_pos hc

theorem munch_name {c : Char} (hc : isNameStart c = true) (rest : List Char) : munch c rest =
    (.token (wordToken (c :: rest.takeWhile isWordChar)), (rest.takeWhile isWordChar).length) := by
  unfold munch
  rw [if_neg (by simp [isBlank_eq_false_of_isNameStart hc]), if_pos hc]

theorem munch_word {c : Char} {cs rest : List Char} (hword : isWord (c :: cs) = true)
    (hrest : ∀ d ∈ rest.head?, isWordChar d = false) :
    munch c (cs ++ rest) = (.token (wordToken (c :: cs)), cs.length) := by
  rw [isWord, Bool.and_eq_true, List.all_eq_true] at hword
  obtain ⟨hc, hcs⟩ := hword
  rw [munch_name hc, takeWhile_append_stop hcs hrest]

theorem pieces_word {word rest : List Char} (hword : isWord word = true) (hrest : ∀ d ∈ rest.head?, isWordChar d = false) :
    pieces (word ++ rest) = ⟨.token (wordToken word), word⟩ :: pieces rest := by
  obtain ⟨c, cs, rfl, -⟩ := exists_cons_of_isWord hword
  rw [List.cons_append, pieces_cons, munch_word hword hrest, List.take_left, List.drop_left]

theorem pieces_blank_word {word : List Char} (hword : isWord word = true) (rest : List Char) :
    pieces (' ' :: (word ++ rest)) = ⟨.skipped, [' ']⟩ :: pieces (word ++ rest) := by
  obtain ⟨c, cs, rfl, hc, -⟩ := exists_cons_of_isWord hword
  have hblank : (c :: (cs ++ rest)).takeWhile isBlank = [] :=
    List.takeWhile_cons_of_neg (by simp [isBlank_eq_false_of_isNameStart hc])
  rw [List.cons_append, pieces_cons ' ', munch_blank (by decide), hblank]
  rfl

theorem Lexes.word (word : List Char) {rest : List Char} {ts : List Token} (hword : isWord word = true)
    (hrest : ∀ c ∈ rest.head?, isWordChar c = false) (h : Lexes rest ts) :
    Lexes (word ++ rest) (wordToken word :: ts) := by
  cases word with
  | nil => cases hword
  | cons c cs => exact h.of_munch _ (munch_word hword hrest)

/-- The words that are no identifiers. -/
def keywords : List String :=
  ["ignore", "missing", "with", "only", "true", "false", "null", "none"]

theorem wordToken_eq_ident_iff {word : String} : wordToken word.toList = .ident word ↔ word ∉ keywords := by
  constructor
  · rintro h hmem
    simp only [keywords, List.mem_cons, List.not_mem_nil, or_false] at hmem
    rcases hmem with rfl | rfl | rfl | rfl | rfl | rfl | rfl | rfl <;> cases h
  · intro h
    unfold wordToken
    rw [String.ofList_toList]
    split <;> simp_all [keywords]

/-! ### Numbers -/

theorem digitValue?_of_isDigit {c : Char} (h : c.isDigit = true) : digitValue? c = some (c.toNat - '0'.toNat) := by
  simp only [Char.isDigit, Bool.and_eq_true, decide_eq_true_eq, ge_iff_le] at h
  have hrange : ('0' ≤ c && c ≤ '9') = true := by
    rw [Bool.and_eq_true, decide_eq_true_eq, decide_eq_true_eq]
    exact h
  rw [digitValue?, if_pos hrange]

theorem ofDigits_eq_ofDigitChars {digits : List Char} (h : ∀ c ∈ digits, c.isDigit = true) :
    ofDigits 10 digits = Nat.ofDigitChars 10 digits 0 := by
  have hstep (m : Nat) : ∀ c ∈ digits, 10 * m + (digitValue? c).getD 0 = 10 * m + (c.toNat - '0'.toNat) := by
    intro c hc
    rw [digitValue?_of_isDigit (h c hc), Option.getD_some]
  rw [ofDigits, List.foldl_ext _ _ 0 hstep, ← Nat.ofDigitChars_eq_foldl]

theorem isDigit_of_mem_toDigits (n : Nat) : ∀ c ∈ Nat.toDigits 10 n, c.isDigit = true := fun _ hc =>
  Nat.isDigit_of_mem_toDigits (b := 10) (by decide) (by decide) hc

theorem ofDigits_toDigits (n : Nat) : ofDigits 10 (Nat.toDigits 10 n) = n := by
  rw [ofDigits_eq_ofDigitChars (isDigit_of_mem_toDigits n), Nat.ofDigitChars_ten_toDigits]

/-- A digit or the dot before a fraction. -/
def continuesNumber (c : Char) : Bool :=
  c.isDigit || c = '.'

/-- Digits are read as a whole. -/
theorem munch_digits {c : Char} {cs rest : List Char} (hdigits : ∀ d ∈ c :: cs, d.isDigit = true)
    (hrest : ∀ d ∈ rest.head?, continuesNumber d = false) :
    munch c (cs ++ rest) = (integerKind (c :: cs), cs.length) := by
  obtain ⟨hc, hcs⟩ := List.forall_mem_cons.mp hdigits
  have hwhole : (cs ++ rest).takeWhile Char.isDigit = cs := by
    refine takeWhile_append_stop hcs fun d hd => ?_
    have := hrest d hd
    rw [continuesNumber, Bool.or_eq_false_iff] at this
    exact this.1
  have hnone (more : List Char) : ¬ HasFraction (cs ++ rest) more := by
    rintro ⟨hdot, -⟩
    rw [hwhole, List.drop_left] at hdot
    exact absurd (hrest '.' (by simp [hdot])) (by decide)
  rw [munch_of_no_fraction hc hnone, hwhole]

theorem Lexes.integer {n : Nat} (hn : n < 2 ^ 63) {rest : List Char} {ts : List Token}
    (hrest : ∀ c ∈ rest.head?, continuesNumber c = false) (h : Lexes rest ts) :
    Lexes (Nat.toDigits 10 n ++ rest) (.integer n :: ts) := by
  have hvalue := ofDigits_toDigits n
  have hdigits := isDigit_of_mem_toDigits n
  cases hn' : Nat.toDigits 10 n with
  | nil => exact absurd hn' Nat.toDigits_ne_nil
  | cons c cs =>
    rw [hn'] at hvalue hdigits
    have hkind : integerKind (c :: cs) = .token (.integer n) := by
      rw [integerKind, hvalue]
      exact if_pos hn
    refine h.of_munch cs ?_
    rw [munch_digits hdigits hrest, hkind]

/-! ### Strings -/

/-- The contents of a string as they stand between quotes. -/
def escape (quote : Char) (cs : List Char) : List Char :=
  cs.flatMap fun c => if c = '\\' ∨ c = quote then ['\\', c] else [c]

theorem stringBody_backslash (quote : Char) {c : Char} (hc : c ≠ '\n') (rest : List Char) :
    stringBody quote ('\\' :: c :: rest) =
      ((stringBody quote rest).1.map (unescape c :: ·), (stringBody quote rest).2 + 2) := by
  rw [stringBody, if_neg hc]

theorem stringBody_cons {quote c : Char} (hescape : c ≠ '\\') (rest : List Char) :
    stringBody quote (c :: rest) =
      if c = quote then (some [], 1) else ((stringBody quote rest).1.map (c :: ·), (stringBody quote rest).2 + 1) := by
  rw [stringBody.eq_def]
  split
  · next heq => cases heq
  · next heq =>
    cases heq
    exact absurd rfl hescape
  · next heq =>
    cases heq
    exact absurd rfl hescape
  · next heq =>
    cases heq
    rfl

theorem stringBody_plain {quote c : Char} (hescape : c ≠ '\\') (hquote : c ≠ quote) (rest : List Char) :
    stringBody quote (c :: rest) = ((stringBody quote rest).1.map (c :: ·), (stringBody quote rest).2 + 1) := by
  rw [stringBody_cons hescape, if_neg hquote]

theorem stringBody_quote {quote : Char} (hescape : quote ≠ '\\') (rest : List Char) :
    stringBody quote (quote :: rest) = (some [], 1) := by
  rw [stringBody_cons hescape, if_pos rfl]

theorem stringBody_escape {quote : Char} (hquote : quote = '"' ∨ quote = '\'') (cs rest : List Char) :
    stringBody quote (escape quote cs ++ quote :: rest) = (some cs, (escape quote cs).length + 1) := by
  have hescape : quote ≠ '\\' ∧ quote ≠ '\n' ∧ unescape quote = quote := by
    rcases hquote with rfl | rfl <;> decide
  induction cs with
  | nil => exact stringBody_quote hescape.1 rest
  | cons c cs ih =>
    rw [escape, List.flatMap_cons, ← escape]
    split
    · next hc =>
      have hc' : c ≠ '\n' ∧ unescape c = c := by
        cases hc with
        | inl hc => subst hc; decide
        | inr hc => exact hc ▸ hescape.2
      rw [List.append_assoc, List.cons_append, List.singleton_append, stringBody_backslash quote hc'.1, ih, hc'.2]
      rfl
    · next hc =>
      rw [not_or] at hc
      rw [List.append_assoc, List.singleton_append, stringBody_plain hc.1 hc.2, ih]
      rfl

theorem munch_comment (body : List Char) : munch '{' ('#' :: body) =
    (if (commentBody body).1 then .skipped else .rejected, (commentBody body).2 + 1) := rfl

theorem munch_blockOpen (rest : List Char) : munch '{' ('%' :: rest) =
    (.token .blockOpen, if rest.head? = some '-' ∨ rest.head? = some '~' then 2 else 1) := by
  cases rest with
  | nil => rfl
  | cons d rest =>
    by_cases hminus : d = '-'
    · simp [munch, isBlank, isNameStart, hminus]
    by_cases htilde : d = '~'
    · simp [munch, isBlank, isNameStart, htilde]
    · simp [munch, isBlank, isNameStart, hminus, htilde]

theorem munch_of_stringBody {quote : Char} (hquote : quote = '"' ∨ quote = '\'') {rest contents : List Char} {n : Nat}
    (h : stringBody quote rest = (some contents, n)) :
    munch quote rest = (.token (.string (String.ofList contents)), n) := by
  rcases hquote with rfl | rfl <;> simp [munch, isBlank, isNameStart, h]

theorem rejected_of_stringBody {quote : Char} (hquote : quote = '"' ∨ quote = '\'') {rest : List Char}
    (h : (stringBody quote rest).1 = none) : (munch quote rest).1 = .rejected := by
  obtain ⟨n, hbody⟩ : ∃ n, stringBody quote rest = (none, n) := ⟨_, Prod.ext h rfl⟩
  rcases hquote with rfl | rfl <;> simp [munch, isBlank, isNameStart, hbody]

theorem Lexes.string {quote : Char} (hquote : quote = '"' ∨ quote = '\'') (s : String) {rest : List Char}
    {ts : List Token} (h : Lexes rest ts) :
    Lexes (quote :: (escape quote s.toList ++ quote :: rest)) (.string s :: ts) := by
  have happend : escape quote s.toList ++ quote :: rest = (escape quote s.toList ++ [quote]) ++ rest := by simp
  have hmunch := munch_of_stringBody hquote (stringBody_escape hquote s.toList rest)
  rw [happend, String.ofList_toList] at hmunch
  rw [happend]
  refine h.of_munch _ (hmunch.trans ?_)
  rw [List.length_append, List.length_singleton]

/-! ### Symbols -/

def symbol? : Char → Option Token
  | '{' => some .braceOpen
  | '}' => some .braceClose
  | '[' => some .bracketOpen
  | ']' => some .bracketClose
  | '(' => some .parenOpen
  | ')' => some .parenClose
  | ',' => some .comma
  | ':' => some .colon
  | '.' => some .dot
  | '~' => some .tilde
  | '-' => some .minus
  | _ => none

theorem munch_of_symbol? {c : Char} {t : Token} (hc : symbol? c = some t) {rest : List Char}
    (hrest : ∀ d ∈ rest.head?, d ≠ '%' ∧ d ≠ '#') : munch c rest = (.token t, 0) := by
  have hclose : ¬ rest.take 2 = ['%', '}'] := by
    intro htake
    cases rest with
    | nil => cases htake
    | cons d rest => exact (hrest d rfl).1 (List.cons.inj htake).1
  unfold symbol? at hc
  split at hc
  case h_1 =>
    cases hc
    cases rest with
    | nil => rfl
    | cons d rest =>
      obtain ⟨hpercent, hnumber⟩ := hrest d rfl
      simp [munch, isBlank, isNameStart, hpercent, hnumber]
  case h_10 =>
    cases hc
    simp [munch, isBlank, isNameStart, hclose]
  case h_11 =>
    cases hc
    simp [munch, isBlank, isNameStart, hclose]
  case h_12 => cases hc
  all_goals
    cases hc
    rfl

/-- A sign is taken off alone unless it closes a block with what follows. -/
theorem munch_sign {c : Char} (hc : c = '-' ∨ c = '~') : ∃ t, symbol? c = some t ∧ ∀ rest, munch c rest =
    if rest.take 2 = ['%', '}'] then (.token .blockClose, 2) else (.token t, 0) := by
  rcases hc with rfl | rfl
  · exact ⟨.minus, rfl, fun _ => rfl⟩
  · exact ⟨.tilde, rfl, fun _ => rfl⟩

theorem munch_percent (rest : List Char) : munch '%' rest =
    if rest.head? = some '}' then (.token .blockClose, 1) else (.rejected, 0) := rfl

/-- What a character can begin. Unless something longer can begin with it, it is a symbol or rejected, whatever follows. -/
theorem munch_cases (c : Char) : isBlank c = true ∨ isNameStart c = true ∨ c.isDigit = true ∨ (c = '"' ∨ c = '\'') ∨
    c = '{' ∨ c = '%' ∨ (c = '-' ∨ c = '~') ∨ ∀ rest, munch c rest = ((symbol? c).elim .rejected .token, 0) := by
  by_contra hnone
  simp only [not_or] at hnone
  obtain ⟨hblank, hname, hdigit, ⟨hdouble, hsingle⟩, hbrace, hpercent, ⟨hminus, htilde⟩, hother⟩ := hnone
  refine hother fun rest => ?_
  simp only [munch, hblank, hname, hdigit, Bool.false_eq_true, if_false]
  split
  case h_1 => exact absurd rfl hdouble
  case h_2 => exact absurd rfl hsingle
  case h_3 => exact absurd rfl hbrace
  case h_4 => exact absurd rfl hpercent
  case h_5 => exact absurd rfl hminus
  case h_6 => exact absurd rfl htilde
  case h_15 => simp_all [symbol?]
  all_goals rfl

/-- A symbol stands for itself, unless a percent sign or a number sign after it makes it part of something else. -/
theorem Lexes.symbol {c : Char} {t : Token} (hc : symbol? c = some t) {rest : List Char} {ts : List Token}
    (hrest : ∀ d ∈ rest.head?, d ≠ '%' ∧ d ≠ '#') (h : Lexes rest ts) : Lexes (c :: rest) (t :: ts) :=
  h.of_munch [] (munch_of_symbol? hc hrest)

end Lexer

end Inclusion
