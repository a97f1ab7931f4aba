import Inclusion.Expr.Eval
import Inclusion.Component.Config
import Inclusion.Text.Span
/-!
# Composing the variables of an include call

The variables of an included component come from up to three layers: the context of the component, the
expression after `with`, and the calling scope. Later layers are put over earlier ones. A directive that
isolates its component with `only` has no calling scope among its layers, and without `with` none at all.
-/

namespace Inclusion

inductive Layer
  | context (c : Context)
  | explicit (e : Expr)
  | ambient
  deriving Repr

def Layer.expr : Layer → Expr
  | context c => Expr.ofValue (.map c)
  | explicit e => e
  | ambient => .ambient

/-- The layers of a directive, from the lowest to the highest. -/
def layers (context : Option Context) (explicit : Option Expr) (only : Bool) : List Layer :=
  if only && explicit.isNone then []
  else
    (context.map Layer.context).toList ++ (explicit.map Layer.explicit).toList ++
      if only then [] else [.ambient]

/-- One expression for all layers; without layers it is the empty map. -/
def compose : List Layer → Expr
  | [] => .emptyMap
  | first :: rest => rest.foldl (fun base layer => .merge base layer.expr) first.expr

/-- What the host has to do for a directive: include a template with the variables that the expression
gives. -/
structure IncludeCall where
  templateId : String
  vars : Expr
  only : Bool
  ignoreMissing : Bool
  span : Span
  deriving Repr

def IncludeCall.evaluate (call : IncludeCall) (scope : Fields Value) : Except EvalError Value :=
  call.vars.evaluate scope

end Inclusion
