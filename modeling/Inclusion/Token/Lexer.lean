import Inclusion.Number.Digits
import Inclusion.Text.Blank
import Inclusion.Text.Span
import Inclusion.Token
/-!
# Taking a text apart into tokens

`munch` looks at the first character of a text and says what begins there and how many more characters
belong to it; always the longest piece is taken. Repeating it cuts the whole text into pieces, each of
them a token, a run of blanks or a comment that is skipped, or something rejected. No character is lost:
the pieces put together again are the text (`flatMap_text_pieces`).
-/

namespace Inclusion

inductive Piece.Kind
  | token (t : Token)
  | skipped
  | rejected
  deriving DecidableEq, Repr

/-- A piece of a text, of at least one character. -/
structure Piece where
  kind : Piece.Kind
  text : List Char
  deriving DecidableEq, Repr

structure Lexeme where
  token : Token
  span : Span
  deriving DecidableEq, Repr

namespace Lexer

/-- The token that a run of letters, digits and underscores is. -/
def wordToken (word : List Char) : Token :=
  match String.ofList word with
  | "ignore" => .clause .ignore
  | "missing" => .clause .missing
  | "with" => .clause .with_
  | "only" => .clause .only
  | "true" => .bool true
  | "false" => .bool false
  | "null" => .null
  | "none" => .null
  | name => .ident name

/-- An integer up to `2 ^ 63 - 1`; a greater one is rejected. -/
def integerKind (digits : List Char) : Piece.Kind :=
  let n := ofDigits 10 digits
  if n < 1 <<< 63 then .token (.integer n) else .rejected

/-- What an item of a string contributes to the contents, for the character after a backslash. -/
def unescape : Char → Char
  | 'n' => '\n'
  | 't' => '\t'
  | c => c

/-- How the rest of a string that was opened with `quote` goes on: its contents and the characters up to
and with the closing quote, or, if it is not closed, only the characters of its complete items. An item
is a plain character or a backslash with a character other than a line feed. -/
def stringBody (quote : Char) : List Char → Option (List Char) × Nat
  | [] => (none, 0)
  | '\\' :: c :: rest =>
    if c = '\n' then (none, 0)
    else
      let (contents, n) := stringBody quote rest
      (contents.map (unescape c :: ·), n + 2)
  | '\\' :: [] => (none, 0)
  | c :: rest =>
    if c = quote then (some [], 1)
    else
      let (contents, n) := stringBody quote rest
      (contents.map (c :: ·), n + 1)

/-- How the rest of a comment goes on after its opening: whether it is closed, and the characters up to
and with the closing, or else those of its complete items. An item is a character other than the number
sign, or a number sign with a character other than the closing brace. -/
def commentBody : List Char → Bool × Nat
  | [] => (false, 0)
  | '#' :: '}' :: _ => (true, 2)
  | '#' :: _ :: rest =>
    let (closed, n) := commentBody rest
    (closed, n + 2)
  | '#' :: [] => (false, 0)
  | _ :: rest =>
    let (closed, n) := commentBody rest
    (closed, n + 1)

/-- A letter or underscore, with which a name begins. -/
def isNameStart (c : Char) : Bool :=
  c.isAlpha || c = '_'

/-- What the piece that begins with `c` is, and how many of the characters after `c` belong to it. -/
def munch (c : Char) (rest : List Char) : Piece.Kind × Nat :=
  if isBlank c then (.skipped, (rest.takeWhile isBlank).length)
  else if isNameStart c then
    let tail := rest.takeWhile isWordChar
    (.token (wordToken (c :: tail)), tail.length)
  else if c.isDigit then
    let tail := rest.takeWhile Char.isDigit
    match rest.drop tail.length with
    | '.' :: more =>
      let places := more.takeWhile Char.isDigit
      if places.isEmpty then (integerKind (c :: tail), tail.length)
      else
        let mantissa := ofDigits 10 (c :: tail ++ places)
        (.token (.float (Binary64.ofDecimal false mantissa (-places.length))), tail.length + 1 + places.length)
    | _ => (integerKind (c :: tail), tail.length)
  else match c with
    | '"' | '\'' =>
      match stringBody c rest with
      | (some contents, n) => (.token (.string (String.ofList contents)), n)
      | (none, n) => (.rejected, n)
    | '{' =>
      match rest with
      | '%' :: '-' :: _ | '%' :: '~' :: _ => (.token .blockOpen, 2)
      | '%' :: _ => (.token .blockOpen, 1)
      | '#' :: body =>
        let (closed, n) := commentBody body
        (if closed then .skipped else .rejected, n + 1)
      | _ => (.token .braceOpen, 0)
    | '%' => if rest.head? = some '}' then (.token .blockClose, 1) else (.rejected, 0)
    | '-' => if rest.take 2 = ['%', '}'] then (.token .blockClose, 2) else (.token .minus, 0)
    | '~' => if rest.take 2 = ['%', '}'] then (.token .blockClose, 2) else (.token .tilde, 0)
    | '}' => (.token .braceClose, 0)
    | '[' => (.token .bracketOpen, 0)
    | ']' => (.token .bracketClose, 0)
    | '(' => (.token .parenOpen, 0)
    | ')' => (.token .parenClose, 0)
    | ',' => (.token .comma, 0)
    | ':' => (.token .colon, 0)
    | '.' => (.token .dot, 0)
    | _ => (.rejected, 0)

def pieces : List Char → List Piece
  | [] => []
  | c :: rest =>
    let (kind, n) := munch c rest
    ⟨kind, c :: rest.take n⟩ :: pieces (rest.drop n)
termination_by cs => cs.length
decreasing_by simp only [List.length_drop, List.length_cons]; omega

theorem pieces_cons (c : Char) (rest : List Char) :
    pieces (c :: rest) =
      ⟨(munch c rest).1, c :: rest.take (munch c rest).2⟩ :: pieces (rest.drop (munch c rest).2) := by
  rw [pieces]

/-- The pieces put together again are the text. -/
theorem flatMap_text_pieces : ∀ cs : List Char, (pieces cs).flatMap Piece.text = cs
  | [] => by rw [pieces, List.flatMap_nil]
  | c :: rest => by
    rw [pieces_cons, List.flatMap_cons, flatMap_text_pieces (rest.drop (munch c rest).2), List.cons_append,
      List.take_append_drop]
termination_by cs => cs.length
decreasing_by simp only [List.length_drop, List.length_cons]; omega

/-- The tokens among pieces that begin at the place `start`. -/
def lexemesFrom (start : Nat) : List Piece → List Lexeme
  | [] => []
  | p :: rest =>
    let stop := start + byteLength p.text
    match p.kind with
    | .token t => ⟨t, ⟨start, stop⟩⟩ :: lexemesFrom stop rest
    | _ => lexemesFrom stop rest

/-- The first rejected piece among pieces that begin at the place `start`. -/
def firstRejectedFrom (start : Nat) : List Piece → Option (List Char × Span)
  | [] => none
  | p :: rest =>
    let stop := start + byteLength p.text
    match p.kind with
    | .rejected => some (p.text, ⟨start, stop⟩)
    | _ => firstRejectedFrom stop rest

/-- The tokens of a text that begins at the place `start`; whatever is rejected is left out. -/
def lexemes (start : Nat) (cs : List Char) : List Lexeme :=
  lexemesFrom start (pieces cs)

/-- The first rejected piece of a text that begins at the place `start`. -/
def firstRejected (start : Nat) (cs : List Char) : Option (List Char × Span) :=
  firstRejectedFrom start (pieces cs)

end Lexer

end Inclusion
