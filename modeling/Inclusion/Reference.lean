import Inclusion.Text.Blank
/-!
# Component references

A reference names a component and perhaps a variant of it: `@card--wide`. The sign at the front can be
left out or repeated. What follows a second separator is not looked at, and an empty variant is none.
-/

namespace Inclusion

structure Reference where
  component : String
  variant : Option String
  deriving DecidableEq, Repr

namespace Reference

/-- The text up to the first separator `--`, and what follows the separator if there is one. -/
def splitSeparator : List Char → List Char × Option (List Char)
  | [] => ([], none)
  | '-' :: '-' :: rest => ([], some rest)
  | c :: rest =>
    let (before, after) := splitSeparator rest
    (c :: before, after)

def parse (text : String) : Option Reference :=
  let (component, after) := splitSeparator (trim text.toList)
  match component.dropWhile (· = '@') with
  | [] => none
  | name =>
    let variant := match after with
      | none => none
      | some rest =>
        match (splitSeparator rest).1 with
        | [] => none
        | v => some (String.ofList v)
    some ⟨String.ofList name, variant⟩

def display (r : Reference) : String :=
  match r.variant with
  | some v => "@" ++ r.component ++ "--" ++ v
  | none => "@" ++ r.component

end Reference

end Inclusion
