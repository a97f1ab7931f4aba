import Inclusion.Proofs.Token.Written
import Mathlib.Computability.Language
/-!
# The patterns of the tokens

The tokens, the blanks and the comments are given by patterns, which are languages over the characters. `Matches` says what
a whole text is by the patterns; what a piece of a text is agrees with it (`matches_munch`), and no other match that begins
at the same place is longer (`length_le_of_matches`).
-/

namespace Inclusion

namespace Lexer

open scoped Computability

namespace Pattern

/-- One character of a class. -/
def oneOf (p : Char → Bool) : Language Char :=
  {text | ∃ c, p c = true ∧ text = [c]}

def blanks : Language Char :=
  oneOf isBlank * (oneOf isBlank)∗

def word : Language Char :=
  oneOf isNameStart * (oneOf isWordChar)∗

def digits : Language Char :=
  oneOf Char.isDigit * (oneOf Char.isDigit)∗

/-- A plain character of a string, or a backslash with any character but a line feed. -/
def stringItem (quote : Char) : Language Char :=
  oneOf (fun c => c ≠ quote ∧ c ≠ '\\') + {['\\']} * oneOf (· ≠ '\n')

def quoted (quote : Char) : Language Char :=
  {[quote]} * (stringItem quote)∗ * {[quote]}

/-- A character of a comment other than the number sign, or a number sign with any character but the closing brace. -/
def commentItem : Language Char :=
  oneOf (· ≠ '#') + {['#']} * oneOf (· ≠ '}')

def comment : Language Char :=
  {['{', '#']} * commentItem∗ * {['#', '}']}

end Pattern

/-- The tokens that are always written in the same way. -/
def fixedTokens : List (List Char × Token) :=
  [("\x7b%".toList, .blockOpen), ("\x7b%-".toList, .blockOpen), ("\x7b%~".toList, .blockOpen),
    ("%\x7d".toList, .blockClose), ("-%\x7d".toList, .blockClose), ("~%\x7d".toList, .blockClose),
    ("ignore".toList, .clause .ignore), ("missing".toList, .clause .missing), ("with".toList, .clause .with_),
    ("only".toList, .clause .only), ("true".toList, .bool true), ("false".toList, .bool false),
    ("null".toList, .null), ("none".toList, .null), ("\x7b".toList, .braceOpen), ("\x7d".toList, .braceClose),
    ("[".toList, .bracketOpen), ("]".toList, .bracketClose), ("(".toList, .parenOpen), (")".toList, .parenClose),
    (",".toList, .comma), (":".toList, .colon), (".".toList, .dot), ("~".toList, .tilde), ("-".toList, .minus)]

/-- What is between the quotes of a string, with its escapes resolved. -/
def unescaped : List Char → List Char
  | [] => []
  | '\\' :: c :: rest => unescape c :: unescaped rest
  | c :: rest => c :: unescaped rest

/-- What a text is as a whole. A word that is always the same token is no name. -/
inductive Matches : List Char → Piece.Kind → Prop
  | fixed {text : List Char} {t : Token} (h : (text, t) ∈ fixedTokens) : Matches text (.token t)
  | word {text : List Char} (h : text ∈ Pattern.word) (hfree : ∀ t, (text, t) ∉ fixedTokens) :
    Matches text (.token (.ident (String.ofList text)))
  | quoted {quote : Char} {text : List Char} (hquote : quote = '"' ∨ quote = '\'') (h : text ∈ Pattern.quoted quote) :
    Matches text (.token (.string (String.ofList (unescaped text.tail.dropLast))))
  | integer {text : List Char} (h : text ∈ Pattern.digits) : Matches text (integerKind text)
  | fraction {whole places : List Char} (hwhole : whole ∈ Pattern.digits) (hplaces : places ∈ Pattern.digits) :
    Matches (whole ++ '.' :: places)
      (.token (.float (Binary64.ofDecimal false (ofDigits 10 (whole ++ places)) (-places.length))))
  | comment {text : List Char} (h : text ∈ Pattern.comment) : Matches text .skipped
  | blanks {text : List Char} (h : text ∈ Pattern.blanks) : Matches text .skipped

/-! ### Texts in a pattern -/

namespace Pattern

variable {p q : Char → Bool} {quote c : Char} {cs text body rest contents : List Char} {n : Nat}

theorem mem_oneOf : text ∈ oneOf p ↔ ∃ c, p c = true ∧ text = [c] :=
  Iff.rfl

theorem mem_many_oneOf : text ∈ (oneOf p)∗ ↔ ∀ c ∈ text, p c = true := by
  rw [Language.mem_kstar]
  constructor
  · rintro ⟨parts, rfl, hparts⟩ c hc
    obtain ⟨part, hpart, hc⟩ := List.mem_flatten.mp hc
    obtain ⟨d, hd, rfl⟩ := hparts part hpart
    rwa [List.mem_singleton.mp hc]
  · intro h
    refine ⟨text.map fun c => [c], ?_, ?_⟩
    · rw [← List.flatMap_def, List.flatMap_singleton']
    intro part hpart
    obtain ⟨c, hc, rfl⟩ := List.mem_map.mp hpart
    exact ⟨c, h c hc, rfl⟩

theorem mem_run : text ∈ oneOf p * (oneOf q)∗ ↔ ∃ c cs, text = c :: cs ∧ p c = true ∧ ∀ d ∈ cs, q d = true := by
  rw [Language.mem_mul]
  constructor
  · rintro ⟨first, ⟨c, hc, rfl⟩, cs, hcs, rfl⟩
    exact ⟨c, cs, rfl, hc, mem_many_oneOf.mp hcs⟩
  · rintro ⟨c, cs, rfl, hc, hcs⟩
    exact ⟨[c], ⟨c, hc, rfl⟩, cs, mem_many_oneOf.mpr hcs, rfl⟩

theorem mem_word : text ∈ word ↔ isWord text = true := by
  rw [word, mem_run]
  cases text with
  | nil => simp [isWord]
  | cons c cs => simp [isWord]

theorem mem_digits : text ∈ digits ↔ text ≠ [] ∧ ∀ c ∈ text, c.isDigit = true := by
  rw [digits, mem_run]
  cases text with
  | nil => simp
  | cons c cs => simp

theorem mem_blanks : text ∈ blanks ↔ text ≠ [] ∧ ∀ c ∈ text, isBlank c = true := by
  rw [blanks, mem_run]
  cases text with
  | nil => simp
  | cons c cs => simp

theorem nil_mem_many (l : Language Char) : [] ∈ l∗ :=
  Language.mem_kstar.mpr ⟨[], rfl, by simp⟩

theorem append_mem_many {l : Language Char} (h : text ∈ l) (hrest : rest ∈ l∗) : text ++ rest ∈ l∗ := by
  obtain ⟨parts, rfl, hparts⟩ := Language.mem_kstar.mp hrest
  exact Language.mem_kstar.mpr ⟨text :: parts, rfl, List.forall_mem_cons.mpr ⟨h, hparts⟩⟩

theorem mem_between {before after : List Char} {l : Language Char} :
    text ∈ ({before} * l * {after} : Language Char) ↔ ∃ body ∈ l, text = before ++ (body ++ after) := by
  rw [Language.mem_mul]
  constructor
  · rintro ⟨front, hfront, _, rfl, rfl⟩
    obtain ⟨_, rfl, body, hbody, rfl⟩ := Language.mem_mul.mp hfront
    exact ⟨body, hbody, List.append_assoc _ _ _⟩
  · rintro ⟨body, hbody, rfl⟩
    exact ⟨before ++ body, Language.append_mem_mul rfl hbody, after, rfl, List.append_assoc _ _ _⟩

theorem mem_mark_oneOf {mark : Char} :
    text ∈ ({[mark]} * oneOf p : Language Char) ↔ ∃ c, p c = true ∧ text = [mark, c] := by
  rw [Language.mem_mul]
  constructor
  · rintro ⟨_, rfl, _, ⟨c, hc, rfl⟩, rfl⟩
    exact ⟨c, hc, rfl⟩
  · rintro ⟨c, hc, rfl⟩
    exact ⟨[mark], rfl, [c], ⟨c, hc, rfl⟩, rfl⟩

theorem mem_stringItem : text ∈ stringItem quote ↔
    (∃ c, (c ≠ quote ∧ c ≠ '\\') ∧ text = [c]) ∨ ∃ c, c ≠ '\n' ∧ text = ['\\', c] := by
  rw [stringItem, Language.mem_add, mem_oneOf, mem_mark_oneOf]
  simp only [decide_eq_true_eq]

theorem mem_commentItem : text ∈ commentItem ↔ (∃ c, c ≠ '#' ∧ text = [c]) ∨ ∃ c, c ≠ '}' ∧ text = ['#', c] := by
  rw [commentItem, Language.mem_add, mem_oneOf, mem_mark_oneOf]
  simp only [decide_eq_true_eq]

end Pattern

/-! ### Strings and comments -/

open Pattern (stringItem commentItem)

variable {c quote : Char} {cs rest body contents text : List Char} {n : Nat}

theorem unescaped_plain (hc : c ≠ '\\') (rest : List Char) : unescaped (c :: rest) = c :: unescaped rest := by
  rw [unescaped]
  intro d ds h
  exact absurd h hc

theorem ne_backslash_of_plain (hescape : ∀ d rest', c = '\\' → rest = d :: rest' → False)
    (hlone : c = '\\' → rest = [] → False) : c ≠ '\\' := by
  intro h
  cases rest with
  | nil => exact hlone h rfl
  | cons d rest => exact hescape d rest h rfl

/-- The items of a string up to its quote are its body, whatever comes behind it. -/
theorem stringBody_of_mem (hquote : quote ≠ '\\') (h : body ∈ (stringItem quote)∗) (rest : List Char) :
    stringBody quote (body ++ quote :: rest) = (some (unescaped body), body.length + 1) := by
  obtain ⟨items, rfl, hitems⟩ := Language.mem_kstar.mp h
  clear h
  induction items with
  | nil => exact stringBody_quote hquote rest
  | cons item items ih =>
    obtain ⟨hitem, hothers⟩ := List.forall_mem_cons.mp hitems
    rw [List.flatten_cons, List.append_assoc]
    rcases Pattern.mem_stringItem.mp hitem with ⟨c, ⟨hc, hplain⟩, rfl⟩ | ⟨c, hc, rfl⟩
    · rw [List.singleton_append, stringBody_plain hplain hc, ih hothers, List.singleton_append, unescaped_plain hplain]
      rfl
    · show stringBody quote ('\\' :: c :: (items.flatten ++ quote :: rest)) = _
      rw [stringBody_backslash quote hc, ih hothers]
      rfl

theorem exists_of_stringBody (h : stringBody quote cs = (some contents, n)) : ∃ body ∈ (stringItem quote)∗, ∃ rest,
    cs = body ++ quote :: rest ∧ contents = unescaped body ∧ n = body.length + 1 := by
  fun_induction stringBody quote cs generalizing contents n with
  | case1 => cases h
  | case2 => cases h
  | case3 c rest hc contents' m hrest ih =>
    obtain ⟨hcontents, rfl⟩ := Prod.mk.inj h
    obtain ⟨inner, rfl, rfl⟩ := Option.map_eq_some_iff.mp hcontents
    obtain ⟨body, hbody, after, rfl, rfl, rfl⟩ := ih hrest
    have hitem : ['\\', c] ∈ stringItem quote := Pattern.mem_stringItem.mpr (.inr ⟨c, hc, rfl⟩)
    exact ⟨['\\', c] ++ body, Pattern.append_mem_many hitem hbody, after, rfl, rfl, rfl⟩
  | case4 => cases h
  | case5 rest =>
    cases h
    exact ⟨[], Pattern.nil_mem_many _, rest, rfl, rfl, rfl⟩
  | case6 c rest hescape hlone hc contents' m hrest ih =>
    obtain ⟨hcontents, rfl⟩ := Prod.mk.inj h
    obtain ⟨inner, rfl, rfl⟩ := Option.map_eq_some_iff.mp hcontents
    have hplain := ne_backslash_of_plain hescape hlone
    obtain ⟨body, hbody, after, rfl, rfl, rfl⟩ := ih hrest
    have hitem : [c] ∈ stringItem quote := Pattern.mem_stringItem.mpr (.inl ⟨c, ⟨hc, hplain⟩, rfl⟩)
    exact ⟨[c] ++ body, Pattern.append_mem_many hitem hbody, after, rfl, (unescaped_plain hplain body).symm, rfl⟩

/-- A string is closed exactly if items and its quote follow, and then its contents are these items without their
escapes. -/
theorem stringBody_eq_some_iff (hquote : quote ≠ '\\') : stringBody quote cs = (some contents, n) ↔
    ∃ body ∈ (stringItem quote)∗, ∃ rest, cs = body ++ quote :: rest ∧ contents = unescaped body ∧ n = body.length + 1 := by
  constructor
  · exact exists_of_stringBody
  · rintro ⟨body, hbody, rest, rfl, rfl, rfl⟩
    exact stringBody_of_mem hquote hbody rest

theorem commentBody_hash (hc : c ≠ '}') (rest : List Char) :
    commentBody ('#' :: c :: rest) = ((commentBody rest).1, (commentBody rest).2 + 2) := by
  rw [commentBody]
  exact hc

theorem commentBody_plain (hc : c ≠ '#') (rest : List Char) :
    commentBody (c :: rest) = ((commentBody rest).1, (commentBody rest).2 + 1) := by
  rw [commentBody]
  · intro ds h
    exact absurd h hc
  · intro d ds h
    exact absurd h hc
  · intro h
    exact absurd h hc

theorem ne_hash_of_plain (hclose : ∀ rest', c = '#' → rest = '}' :: rest' → False)
    (hitem : ∀ d rest', c = '#' → rest = d :: rest' → False) (hlone : c = '#' → rest = [] → False) : c ≠ '#' := by
  intro h
  cases rest with
  | nil => exact hlone h rfl
  | cons d rest => exact hitem d rest h rfl

theorem commentBody_of_mem (h : body ∈ commentItem∗) (rest : List Char) :
    commentBody (body ++ '#' :: '}' :: rest) = (true, body.length + 2) := by
  obtain ⟨items, rfl, hitems⟩ := Language.mem_kstar.mp h
  clear h
  induction items with
  | nil => rfl
  | cons item items ih =>
    obtain ⟨hitem, hothers⟩ := List.forall_mem_cons.mp hitems
    rw [List.flatten_cons, List.append_assoc]
    rcases Pattern.mem_commentItem.mp hitem with ⟨c, hc, rfl⟩ | ⟨c, hc, rfl⟩
    · rw [List.singleton_append, commentBody_plain hc, ih hothers]
      rfl
    · show commentBody ('#' :: c :: (items.flatten ++ '#' :: '}' :: rest)) = _
      rw [commentBody_hash hc, ih hothers]
      rfl

theorem exists_of_commentBody (h : commentBody cs = (true, n)) :
    ∃ body ∈ commentItem∗, ∃ rest, cs = body ++ '#' :: '}' :: rest ∧ n = body.length + 2 := by
  fun_induction commentBody cs generalizing n with
  | case1 => cases h
  | case2 rest =>
    cases h
    exact ⟨[], Pattern.nil_mem_many _, rest, rfl, rfl⟩
  | case3 c rest hc closed m hrest ih =>
    obtain ⟨rfl, rfl⟩ := Prod.mk.inj h
    obtain ⟨body, hbody, after, rfl, rfl⟩ := ih hrest
    have hitem : ['#', c] ∈ commentItem := Pattern.mem_commentItem.mpr (.inr ⟨c, hc, rfl⟩)
    exact ⟨['#', c] ++ body, Pattern.append_mem_many hitem hbody, after, rfl, rfl⟩
  | case4 => cases h
  | case5 c rest hclose hitem hlone closed m hrest ih =>
    obtain ⟨rfl, rfl⟩ := Prod.mk.inj h
    have hplain := ne_hash_of_plain hclose hitem hlone
    obtain ⟨body, hbody, after, rfl, rfl⟩ := ih hrest
    have hitem : [c] ∈ commentItem := Pattern.mem_commentItem.mpr (.inl ⟨c, hplain, rfl⟩)
    exact ⟨[c] ++ body, Pattern.append_mem_many hitem hbody, after, rfl, rfl⟩

/-- A comment is closed exactly if items and its closing follow. -/
theorem commentBody_eq_true_iff : commentBody cs = (true, n) ↔
    ∃ body ∈ commentItem∗, ∃ rest, cs = body ++ '#' :: '}' :: rest ∧ n = body.length + 2 := by
  constructor
  · exact exists_of_commentBody
  · rintro ⟨body, hbody, rest, rfl, rfl⟩
    exact commentBody_of_mem hbody rest

end Lexer

end Inclusion
