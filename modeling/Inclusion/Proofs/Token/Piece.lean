import Inclusion.Proofs.Template.Scan
import Inclusion.Token.Lexer
import Mathlib.Data.List.TakeWhile
/-!
# The pieces of a directive

`Shaped` says what the text of a piece can be, by its kind. The scan for the end of a block passes over every token
other than an opening or closing of a block: outside quotes before it, it is outside quotes after it. A string has
its quotes, and its escapes are those of the scan. Only a comment can change what the scan is in.
-/

namespace Inclusion

open Template (quoteAfter EndsWhole)

/-- A comment among the pieces that are skipped. -/
def Piece.IsComment (p : Piece) : Prop :=
  p.kind = .skipped ∧ p.text.head? = some '{'

instance (p : Piece) : Decidable p.IsComment :=
  inferInstanceAs (Decidable (_ ∧ _))

namespace Lexer

/-- What the text of a piece can be. -/
inductive Shaped : Piece → Prop
  | blank {text : List Char} (hne : text ≠ []) (h : ∀ c ∈ text, isBlank c = true) : Shaped ⟨.skipped, text⟩
  | comment (body : List Char) : Shaped ⟨.skipped, '{' :: '#' :: (body ++ ['#', '}'])⟩
  | plain {t : Token} {text : List Char} (ht : t ≠ .blockOpen ∧ t ≠ .blockClose) (hne : text ≠ [])
    (h : ∀ c ∈ text, c ≠ '"' ∧ c ≠ '\'' ∧ c ≠ '%' ∧ c ≠ '\\') : Shaped ⟨.token t, text⟩
  | string {s : String} {quote : Char} {body : List Char} (hquote : quote = '"' ∨ quote = '\'')
    (h : quoteAfter (some quote) (body ++ [quote]) = some none) : Shaped ⟨.token (.string s), quote :: (body ++ [quote])⟩
  | blockOpen {text : List Char} (h : text = ['{', '%'] ∨ text = ['{', '%', '-'] ∨ text = ['{', '%', '~']) :
    Shaped ⟨.token .blockOpen, text⟩
  | blockClose {text : List Char} (h : text = ['%', '}'] ∨ text = ['-', '%', '}'] ∨ text = ['~', '%', '}']) :
    Shaped ⟨.token .blockClose, text⟩
  | rejected (text : List Char) : Shaped ⟨.rejected, text⟩

theorem take_of_stringBody {quote : Char} (hquote : quote ≠ '\\') {cs contents : List Char} {n : Nat}
    (h : stringBody quote cs = (some contents, n)) :
    ∃ body, cs.take n = body ++ [quote] ∧ quoteAfter (some quote) (body ++ [quote]) = some none := by
  fun_induction stringBody quote cs generalizing contents n with
  | case1 => cases h
  | case2 => cases h
  | case3 c rest hc contents' m hrest ih =>
    obtain ⟨hcontents, rfl⟩ := Prod.mk.inj h
    obtain ⟨inner, rfl, -⟩ := Option.map_eq_some_iff.mp hcontents
    obtain ⟨body, htake, hscan⟩ := ih hrest
    refine ⟨'\\' :: c :: body, ?_, ?_⟩
    · rw [List.take_succ_cons, List.take_succ_cons, htake]
      rfl
    · simpa [quoteAfter] using hscan
  | case4 => cases h
  | case5 rest =>
    cases h
    refine ⟨[], rfl, ?_⟩
    simp [quoteAfter, hquote]
  | case6 c rest hescape hlone hc contents' m hrest ih =>
    obtain ⟨hcontents, rfl⟩ := Prod.mk.inj h
    obtain ⟨inner, rfl, -⟩ := Option.map_eq_some_iff.mp hcontents
    obtain ⟨body, htake, hscan⟩ := ih hrest
    have hne : c ≠ '\\' := by
      intro heq
      cases rest with
      | nil => exact hlone heq rfl
      | cons d rest => exact hescape d rest heq rfl
    refine ⟨c :: body, ?_, ?_⟩
    · rw [List.take_succ_cons, htake]
      rfl
    · rw [List.cons_append, Template.quoteAfter_quoted hne, if_neg hc]
      exact hscan

theorem take_of_commentBody {cs : List Char} {n : Nat} (h : commentBody cs = (true, n)) :
    ∃ body, cs.take n = body ++ ['#', '}'] := by
  fun_induction commentBody cs generalizing n with
  | case1 => cases h
  | case2 =>
    cases h
    exact ⟨[], rfl⟩
  | case3 c rest hc closed m hrest ih =>
    obtain ⟨rfl, rfl⟩ := Prod.mk.inj h
    obtain ⟨body, htake⟩ := ih hrest
    refine ⟨'#' :: c :: body, ?_⟩
    rw [List.take_succ_cons, List.take_succ_cons, htake]
    rfl
  | case4 => cases h
  | case5 c rest _ _ _ closed m hrest ih =>
    obtain ⟨rfl, rfl⟩ := Prod.mk.inj h
    obtain ⟨body, htake⟩ := ih hrest
    refine ⟨c :: body, ?_⟩
    rw [List.take_succ_cons, htake]
    rfl

theorem wordToken_ne (word : List Char) : wordToken word ≠ .blockOpen ∧ wordToken word ≠ .blockClose := by
  unfold wordToken
  split <;> simp

theorem ne_of_isWordChar {c : Char} (h : isWordChar c = true) : c ≠ '"' ∧ c ≠ '\'' ∧ c ≠ '%' ∧ c ≠ '\\' := by
  refine ⟨?_, ?_, ?_, ?_⟩ <;> rintro rfl <;> exact absurd h (by decide)

theorem isWordChar_of_isNameStart {c : Char} (h : isNameStart c = true) : isWordChar c = true := by
  simp only [isNameStart, isWordChar, Char.isAlphanum, Bool.or_eq_true] at h ⊢
  exact h.imp_left .inl

theorem isWordChar_of_isDigit {c : Char} (h : c.isDigit = true) : isWordChar c = true := by
  simp [isWordChar, Char.isAlphanum, h]

theorem shaped_integer {text : List Char} (hne : text ≠ []) (h : ∀ c ∈ text, isWordChar c = true) :
    Shaped ⟨integerKind text, text⟩ := by
  unfold integerKind
  dsimp only
  split
  · exact .plain (by simp) hne fun c hc => ne_of_isWordChar (h c hc)
  · exact .rejected _

theorem take_length_takeWhile (p : Char → Bool) (cs : List Char) : cs.take (cs.takeWhile p).length = cs.takeWhile p :=
  (List.prefix_iff_eq_take.mp (List.takeWhile_prefix p)).symm

theorem isBlank_eq_false_of_isDigit {c : Char} (h : c.isDigit = true) : isBlank c = false := by
  refine Bool.eq_false_iff.mpr fun hblank => ?_
  simp only [isBlank, Bool.or_eq_true, decide_eq_true_eq] at hblank
  rcases hblank with ((rfl | rfl) | rfl) | rfl <;> exact absurd h (by decide)

theorem toNat_of_isNameStart {c : Char} (h : isNameStart c = true) : 65 ≤ c.toNat ∧ c.toNat ≤ 122 := by
  rcases Bool.or_eq_true_iff.mp h with halpha | hunderscore
  · rcases Bool.or_eq_true_iff.mp halpha with hupper | hlower
    · obtain ⟨h65, h90⟩ : 'A'.val ≤ c.val ∧ c.val ≤ 'Z'.val := of_decide_eq_true hupper
      exact ⟨h65, Nat.le_trans h90 (by decide)⟩
    · obtain ⟨h97, h122⟩ := Bool.and_eq_true_iff.mp hlower
      exact ⟨Nat.le_trans (by decide) (of_decide_eq_true h97), of_decide_eq_true h122⟩
  · obtain rfl := of_decide_eq_true hunderscore
    decide

theorem toNat_of_isWordChar {c : Char} (h : isWordChar c = true) : 48 ≤ c.toNat ∧ c.toNat ≤ 122 := by
  have hname : isNameStart c = true → 48 ≤ c.toNat ∧ c.toNat ≤ 122 := by
    intro hname
    have := toNat_of_isNameStart hname
    omega
  rcases Bool.or_eq_true_iff.mp h with halphanum | hunderscore
  · rcases Bool.or_eq_true_iff.mp halphanum with halpha | hdigit
    · exact hname (Bool.or_eq_true_iff.mpr (.inl halpha))
    · obtain ⟨h48, h57⟩ := Bool.and_eq_true_iff.mp hdigit
      exact ⟨of_decide_eq_true h48, Nat.le_trans (of_decide_eq_true h57) (by decide)⟩
  · exact hname (Bool.or_eq_true_iff.mpr (.inr hunderscore))

theorem isSpace_eq_false_of_isWordChar {c : Char} (h : isWordChar c = true) : isSpace c = false := by
  obtain ⟨h48, h122⟩ := toNat_of_isWordChar h
  simp only [isSpace, Bool.or_eq_false_iff, Bool.and_eq_false_iff, decide_eq_false_iff_not]
  omega

theorem isNameStart_eq_false_of_isDigit {c : Char} (h : c.isDigit = true) : isNameStart c = false := by
  have h57 : c.toNat ≤ 57 := of_decide_eq_true (Bool.and_eq_true_iff.mp h).2
  refine Bool.eq_false_iff.mpr fun hname => ?_
  have h65 := (toNat_of_isNameStart hname).1
  omega

theorem take_takeWhile_add (p : Char → Bool) {cs ds : List Char} {c : Char}
    (h : cs.drop (cs.takeWhile p).length = c :: ds) (n : Nat) :
    cs.take ((cs.takeWhile p).length + 1 + n) = cs.takeWhile p ++ c :: ds.take n := by
  have hcs : cs = cs.takeWhile p ++ c :: ds := by
    have := List.take_append_drop (cs.takeWhile p).length cs
    rw [take_length_takeWhile, h] at this
    exact this.symm
  conv => lhs; arg 2; rw [hcs]
  rw [Nat.add_assoc, List.take_length_add_append, Nat.add_comm 1, List.take_succ_cons]

/-- The text goes on with a dot and more digits behind the digits that it begins with. -/
def HasFraction (cs more : List Char) : Prop :=
  cs.drop (cs.takeWhile Char.isDigit).length = '.' :: more ∧ more.takeWhile Char.isDigit ≠ []

theorem munch_of_hasFraction {c : Char} (hc : c.isDigit = true) {rest more : List Char} (h : HasFraction rest more) :
    let whole := rest.takeWhile Char.isDigit
    let places := more.takeWhile Char.isDigit
    munch c rest = (.token (.float (Binary64.ofDecimal false (ofDigits 10 (c :: whole ++ places)) (-places.length))),
      whole.length + 1 + places.length) := by
  unfold munch
  rw [if_neg (Bool.eq_false_iff.mp (isBlank_eq_false_of_isDigit hc)),
    if_neg (Bool.eq_false_iff.mp (isNameStart_eq_false_of_isDigit hc)), if_pos hc]
  dsimp only
  rw [h.1]
  exact if_neg (by simpa using h.2)

theorem munch_of_no_fraction {c : Char} (hc : c.isDigit = true) {rest : List Char} (h : ∀ more, ¬ HasFraction rest more) :
    munch c rest = (integerKind (c :: rest.takeWhile Char.isDigit), (rest.takeWhile Char.isDigit).length) := by
  unfold munch
  rw [if_neg (Bool.eq_false_iff.mp (isBlank_eq_false_of_isDigit hc)),
    if_neg (Bool.eq_false_iff.mp (isNameStart_eq_false_of_isDigit hc)), if_pos hc]
  dsimp only
  split
  · next more hmore =>
    have hplaces : more.takeWhile Char.isDigit = [] := Classical.not_not.mp fun hne => h more ⟨hmore, hne⟩
    rw [hplaces]
    rfl
  · rfl

/-- Digits, perhaps with a dot and more digits. -/
theorem shaped_number {c : Char} (hc : c.isDigit = true) (rest : List Char) :
    Shaped ⟨(munch c rest).1, c :: rest.take (munch c rest).2⟩ := by
  have hdigits (cs : List Char) : ∀ d ∈ cs.takeWhile Char.isDigit, isWordChar d = true :=
    fun d hd => isWordChar_of_isDigit (List.mem_takeWhile_imp hd)
  have hwhole : ∀ d ∈ c :: rest.takeWhile Char.isDigit, isWordChar d = true :=
    List.forall_mem_cons.mpr ⟨isWordChar_of_isDigit hc, hdigits rest⟩
  by_cases hfraction : ∃ more, HasFraction rest more
  · obtain ⟨more, hfraction⟩ := hfraction
    rw [munch_of_hasFraction hc hfraction]
    refine .plain (by simp) (List.cons_ne_nil _ _) ?_
    rw [take_takeWhile_add _ hfraction.1, take_length_takeWhile]
    intro d hd
    rw [← List.cons_append] at hd
    cases List.mem_append.mp hd with
    | inl hd => exact ne_of_isWordChar (hwhole d hd)
    | inr hd =>
      cases List.mem_cons.mp hd with
      | inl hd =>
        rw [hd]
        decide
      | inr hd => exact ne_of_isWordChar (hdigits more d hd)
  · rw [munch_of_no_fraction hc (not_exists.mp hfraction), take_length_takeWhile]
    exact shaped_integer (List.cons_ne_nil _ _) hwhole

theorem shaped_string {quote : Char} (hquote : quote = '"' ∨ quote = '\'') {rest contents : List Char} {n : Nat}
    (h : stringBody quote rest = (some contents, n)) (s : String) :
    Shaped ⟨.token (.string s), quote :: rest.take n⟩ := by
  have hescape : quote ≠ '\\' := by
    rcases hquote with rfl | rfl <;> decide
  obtain ⟨body, htake, hscan⟩ := take_of_stringBody hescape h
  rw [htake]
  exact .string hquote hscan

theorem shaped_munch (c : Char) (rest : List Char) : Shaped ⟨(munch c rest).1, c :: rest.take (munch c rest).2⟩ := by
  by_cases hdigit : c.isDigit = true
  · exact shaped_number hdigit rest
  unfold munch
  split
  · next hc =>
    refine .blank (List.cons_ne_nil _ _) ?_
    rw [take_length_takeWhile]
    intro d hd
    cases List.mem_cons.mp hd with
    | inl hd => rwa [hd]
    | inr hd => exact List.mem_takeWhile_imp hd
  split
  · next hc =>
    refine .plain (wordToken_ne _) (List.cons_ne_nil _ _) ?_
    rw [take_length_takeWhile]
    intro d hd
    cases List.mem_cons.mp hd with
    | inl hd => exact hd ▸ ne_of_isWordChar (isWordChar_of_isNameStart hc)
    | inr hd => exact ne_of_isWordChar (List.mem_takeWhile_imp hd)
  split
  · split
    · next hbody => exact shaped_string (.inl rfl) hbody _
    · exact .rejected _
  · split
    · next hbody => exact shaped_string (.inr rfl) hbody _
    · exact .rejected _
  · split
    · exact .blockOpen (.inr (.inl rfl))
    · exact .blockOpen (.inr (.inr rfl))
    · exact .blockOpen (.inl rfl)
    · next body =>
      cases hbody : commentBody body with
      | mk closed n =>
        cases closed with
        | true =>
          obtain ⟨inner, htake⟩ := take_of_commentBody hbody
          simp only [if_true, List.take_succ_cons, htake]
          exact .comment inner
        | false => exact .rejected _
    · exact .plain (by simp) (by simp) (by simp)
  · split
    · next hhead =>
      obtain ⟨rest, rfl⟩ := List.head?_eq_some_iff.mp hhead
      exact .blockClose (.inl rfl)
    · exact .rejected _
  · split
    · next htake =>
      simp only [htake]
      exact .blockClose (.inr (.inl rfl))
    · exact .plain (by simp) (by simp) (by simp)
  · split
    · next htake =>
      simp only [htake]
      exact .blockClose (.inr (.inr rfl))
    · exact .plain (by simp) (by simp) (by simp)
  all_goals first | exact .plain (by simp) (by simp) (by simp) | exact .rejected _

theorem shaped_of_mem_pieces {p : Piece} : ∀ {cs : List Char}, p ∈ pieces cs → Shaped p
  | [], h => by
    rw [pieces] at h
    cases h
  | c :: rest, h => by
    rw [pieces_cons] at h
    cases List.mem_cons.mp h with
    | inl h =>
      rw [h]
      exact shaped_munch c rest
    | inr h => exact shaped_of_mem_pieces h
termination_by cs => cs.length
decreasing_by simp only [List.length_drop, List.length_cons]; omega

theorem Shaped.text_ne_nil {p : Piece} (h : Shaped p) (hrejected : p.kind ≠ .rejected) : p.text ≠ [] := by
  cases h with
  | blank hne => exact hne
  | plain _ hne => exact hne
  | blockOpen h => rcases h with rfl | rfl | rfl <;> simp
  | blockClose h => rcases h with rfl | rfl | rfl <;> simp
  | rejected => exact absurd rfl hrejected
  | _ => simp

theorem Shaped.exists_sign {p : Piece} (h : Shaped p) (hkind : p.kind = .token .blockClose) :
    ∃ sign, (sign = [] ∨ sign = ['-'] ∨ sign = ['~']) ∧ p = ⟨.token .blockClose, sign ++ ['%', '}']⟩ := by
  cases h with
  | plain ht => exact absurd (Piece.Kind.token.inj hkind) ht.2
  | blockClose h =>
    rcases h with rfl | rfl | rfl
    · exact ⟨[], .inl rfl, rfl⟩
    · exact ⟨['-'], .inr (.inl rfl), rfl⟩
    · exact ⟨['~'], .inr (.inr rfl), rfl⟩
  | _ => cases hkind

theorem Shaped.suffix_of_blockClose {p : Piece} (h : Shaped p) (hkind : p.kind = .token .blockClose) :
    ['%', '}'] <:+ p.text := by
  obtain ⟨sign, -, rfl⟩ := h.exists_sign hkind
  exact List.suffix_append sign _

/-! ### What the scan makes of a piece -/

theorem Shaped.endsWhole {p : Piece} (h : Shaped p) (hrejected : p.kind ≠ .rejected)
    (hopen : p.kind ≠ .token .blockOpen) : EndsWhole p.text := by
  cases h with
  | blank hne h =>
    refine Template.endsWhole_plain fun c hc => ?_
    have := h c hc
    constructor <;> rintro rfl <;> exact absurd this (by decide)
  | comment body =>
    have htext : '{' :: '#' :: (body ++ ['#', '}']) = ('{' :: '#' :: (body ++ ['#'])) ++ ['}'] := by simp
    rw [htext]
    exact Template.endsWhole_concat _ (by decide)
  | plain ht hne h => exact Template.endsWhole_plain fun c hc => ⟨(h c hc).2.2.1, (h c hc).2.2.2⟩
  | string hquote h =>
    rw [← List.cons_append]
    refine Template.endsWhole_concat _ ?_
    rcases hquote with rfl | rfl <;> decide
  | blockOpen => exact absurd rfl hopen
  | blockClose h =>
    intro c hc
    rcases h with rfl | rfl | rfl <;> simp at hc <;> subst hc <;> decide
  | rejected => exact absurd rfl hrejected

/-- The scan is outside quotes after a piece if it is so before, unless the piece is a comment. -/
theorem Shaped.quoteAfter {p : Piece} (h : Shaped p) (hrejected : p.kind ≠ .rejected)
    (hopen : p.kind ≠ .token .blockOpen) (hclose : p.kind ≠ .token .blockClose) (hcomment : ¬ p.IsComment) :
    quoteAfter none p.text = some none := by
  cases h with
  | blank hne h =>
    refine Template.quoteAfter_plain fun c hc => ?_
    have := h c hc
    refine ⟨?_, ?_, ?_⟩ <;> rintro rfl <;> exact absurd this (by decide)
  | comment body => exact absurd ⟨rfl, rfl⟩ hcomment
  | plain ht hne h => exact Template.quoteAfter_plain fun c hc => ⟨(h c hc).1, (h c hc).2.1, (h c hc).2.2.1⟩
  | string hquote h =>
    rcases hquote with rfl | rfl
    · rw [Template.quoteAfter_outside (by simp)]
      exact h
    · rw [Template.quoteAfter_outside (by simp)]
      exact h
  | blockOpen => exact absurd rfl hopen
  | blockClose => exact absurd rfl hclose
  | rejected => exact absurd rfl hrejected

theorem quoteAfter_flatMap_append {ps : List Piece} (h : ∀ p ∈ ps, EndsWhole p.text ∧ quoteAfter none p.text = some none)
    (ys : List Char) : quoteAfter none (ps.flatMap Piece.text ++ ys) = quoteAfter none ys := by
  induction ps with
  | nil => rfl
  | cons p ps ih =>
    obtain ⟨hwhole, hquote⟩ := h p List.mem_cons_self
    rw [List.flatMap_cons, List.append_assoc, Template.quoteAfter_append hwhole, hquote, Option.bind_some]
    exact ih fun q hq => h q (List.mem_cons_of_mem p hq)

/-! ### Blanks -/

/-- Blanks are a piece of their own. -/
theorem exists_blanks (cs : List Char) : ∃ blanks : List Piece, (∀ p ∈ blanks, p.kind = .skipped ∧ ¬ p.IsComment) ∧
    pieces cs = blanks ++ pieces (cs.dropWhile isBlank) := by
  cases cs with
  | nil => exact ⟨[], by simp, rfl⟩
  | cons c rest =>
    by_cases hc : isBlank c = true
    · have hmunch : munch c rest = (.skipped, (rest.takeWhile isBlank).length) := if_pos hc
      refine ⟨[⟨.skipped, c :: rest.takeWhile isBlank⟩], ?_, ?_⟩
      · intro p hp
        rw [List.mem_singleton.mp hp]
        refine ⟨rfl, ?_⟩
        rintro ⟨-, hbrace⟩
        rw [Option.some.inj hbrace] at hc
        exact absurd hc (by decide)
      · have hdrop : rest.drop (rest.takeWhile isBlank).length = rest.dropWhile isBlank := by
          conv => lhs; arg 2; rw [← List.takeWhile_append_dropWhile (p := isBlank) (l := rest)]
          exact List.drop_left
        rw [pieces_cons, hmunch, List.dropWhile_cons_of_pos hc]
        simp only [take_length_takeWhile, hdrop]
        rfl
    · exact ⟨[], by simp, by rw [List.dropWhile_cons_of_neg hc, List.nil_append]⟩

/-! ### The first word -/

theorem ident_of_wordToken {word : List Char} {name : String} (h : wordToken word = .ident name) :
    name = String.ofList word := by
  unfold wordToken at h
  split at h
  case h_9 => exact (Token.ident.inj h).symm
  all_goals cases h

theorem integerKind_ne_ident {digits : List Char} {name : String} : integerKind digits ≠ .token (.ident name) := by
  unfold integerKind
  dsimp only
  split <;> simp

/-- A name is as long as possible. -/
theorem munch_ident {c : Char} {rest : List Char} {name : String} (h : (munch c rest).1 = .token (.ident name)) :
    isNameStart c = true ∧ name = String.ofList (c :: rest.takeWhile isWordChar) := by
  unfold munch at h
  split at h
  · cases h
  split at h
  · next hc => exact ⟨hc, ident_of_wordToken (Piece.Kind.token.inj h)⟩
  exfalso
  split at h
  · dsimp only at h
    split at h
    · split at h
      · exact integerKind_ne_ident h
      · cases h
    · exact integerKind_ne_ident h
  split at h
  case h_3 =>
    split at h
    · cases h
    · cases h
    · cases h
    · dsimp only at h
      split at h <;> cases h
    · cases h
  all_goals first | cases h | split at h <;> cases h

end Lexer

end Inclusion
