import Inclusion.Text.Blank
import Inclusion.Text.Span
/-!
# Blocks of a template

A template is plain text with comments and blocks in it. A comment runs from its opening to the next
closing of a comment. A block runs from its opening to the next closing of a block that is outside quotes;
inside quotes a backslash takes the next character with it. What is not closed runs to the end. Directives
are the blocks whose first word is a tag.
-/

namespace Inclusion

namespace Template

/-- What a piece of a template is: a plain character, a comment or a block. -/
inductive Kind
  | plain
  | comment
  | block
  deriving DecidableEq, Repr

/-- How many characters a comment goes on for after its opening, its closing included. -/
def commentLength : List Char → Nat
  | [] => 0
  | '#' :: '}' :: _ => 2
  | _ :: rest => commentLength rest + 1

/-- How many characters a block goes on for after its opening, its closing included, when `quote` is the
quote that is open. -/
def blockLength (quote : Option Char) : List Char → Nat
  | [] => 0
  | c :: rest =>
    match quote with
    | some q =>
      if c = '\\' then
        match rest with
        | [] => 1
        | _ :: rest => blockLength (some q) rest + 2
      else blockLength (if c = q then none else some q) rest + 1
    | none =>
      if c = '%' && rest.head? = some '}' then 2
      else blockLength (if c = '"' || c = '\'' then some c else none) rest + 1

/-- What the piece that begins with `c` is, and how many of the characters after `c` belong to it. -/
def munch (c : Char) (rest : List Char) : Kind × Nat :=
  match c, rest with
  | '{', '#' :: rest => (.comment, commentLength rest + 1)
  | '{', '%' :: rest => (.block, blockLength none rest + 1)
  | _, _ => (.plain, 0)

def pieces : List Char → List (Kind × List Char)
  | [] => []
  | c :: rest =>
    let (kind, n) := munch c rest
    (kind, c :: rest.take n) :: pieces (rest.drop n)
termination_by cs => cs.length
decreasing_by simp only [List.length_drop, List.length_cons]; omega

/-- The first word of a block, if it has one. A minus or a tilde can stand at the opening. -/
def firstWord (block : List Char) : Option String :=
  let body := block.drop 2
  let body := match body with
    | '-' :: rest | '~' :: rest => rest
    | _ => body
  match (trimStart body).takeWhile isWordChar with
  | [] => none
  | word => some (String.ofList word)

/-- A block whose first word is a tag, and where it starts. -/
structure Block where
  tag : String
  text : List Char
  start : Nat
  deriving DecidableEq, Repr

def Block.span (b : Block) : Span :=
  ⟨b.start, b.start + byteLength b.text⟩

/-- The blocks with one of the tags among pieces that begin at the place `start`. -/
def blocksFrom (tags : List String) (start : Nat) : List (Kind × List Char) → List Block
  | [] => []
  | (kind, text) :: rest =>
    let others := blocksFrom tags (start + byteLength text) rest
    match kind, firstWord text with
    | .block, some tag => if tags.contains tag then ⟨tag, text, start⟩ :: others else others
    | _, _ => others

/-- The blocks of a template with one of the tags, in order. -/
def blocks (tags : List String) (cs : List Char) : List Block :=
  blocksFrom tags 0 (pieces cs)

theorem pieces_cons (c : Char) (rest : List Char) :
    pieces (c :: rest) =
      ((munch c rest).1, c :: rest.take (munch c rest).2) :: pieces (rest.drop (munch c rest).2) := by
  rw [pieces]

/-- The pieces put together again are the template. -/
theorem flatMap_snd_pieces : ∀ cs : List Char, (pieces cs).flatMap Prod.snd = cs
  | [] => by rw [pieces, List.flatMap_nil]
  | c :: rest => by
    rw [pieces_cons, List.flatMap_cons, flatMap_snd_pieces (rest.drop (munch c rest).2), List.cons_append,
      List.take_append_drop]
termination_by cs => cs.length
decreasing_by simp only [List.length_drop, List.length_cons]; omega

end Template

end Inclusion
