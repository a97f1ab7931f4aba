import Inclusion.Value
/-!
# Component configs and the contexts of variants

A component can have a config document next to its template: a base context, named variants with
contexts of their own, and the name of a default variant. Resolving a config for a variant gives the
context that the component is included with. Its first key is always `variant`; the other keys are first
those of the base context and then those of the variant, and no key is overwritten. Only a variant that
is asked for brings its context in; a default variant only gives its name.
-/

namespace Inclusion

/-- The variables that a component is included with. -/
abbrev Context := Fields Value

structure Variant where
  name : String
  context : Option Context
  deriving Repr

structure Config where
  defaultVariant : Option String := none
  context : Option Context := none
  variants : Option (List Variant) := none
  deriving Repr, Inhabited

namespace Context

/-- The key that holds the name of the variant. -/
def variantKey : String := "variant"

/-- A context that holds only the name of the variant, `null` if there is none. -/
def seeded (variant : Option String) : Context :=
  [(variantKey, (variant.map Value.string).getD .null)]

def variant (c : Context) : Option String :=
  match Fields.get? variantKey c with
  | some (.scalar (.string s)) => some s
  | _ => none

end Context

namespace Config

def variant? (config : Config) (name : String) : Option Variant :=
  (config.variants.getD []).find? fun v => v.name = name

/-- The context for the variant that is asked for, if one is. -/
def resolve (config : Config) (variant : Option String) : Context :=
  let seed := Context.seeded (match variant with
    | some v => some v
    | none => config.defaultVariant)
  let based := Fields.fill seed (config.context.getD [])
  match variant with
  | none => based
  | some name =>
    if name = "" then based
    else
      match config.variant? name with
      | some v => Fields.fill based (v.context.getD [])
      | none => based

end Config

end Inclusion
