import Inclusion.Composition
/-!
# Expressions and calls as values

A host that does not evaluate variables itself gets the expression as a tree of maps: each has a `kind`
and, unless it is the calling scope, a `value`.
-/

namespace Inclusion

namespace Expr

def node (kind : String) (value : Value) : Value :=
  .map [("kind", .string kind), ("value", value)]

mutual

def toTree : Expr → Value
  | literal s => node "literal" (.scalar s)
  | name path => node "name" (.list (path.map .string))
  | map entries => node "map" (.list (entryTrees entries))
  | list items => node "list" (.list (itemTrees items))
  | concat left right => node "concat" (.list [left.toTree, right.toTree])
  | ambient => .map [("kind", .string "ambient")]
  | merge base overlay => node "merge" (.map [("base", base.toTree), ("overlay", overlay.toTree)])
termination_by structural e => e

def itemTrees : List Expr → List Value
  | [] => []
  | e :: rest => e.toTree :: itemTrees rest
termination_by structural es => es

/-- Each entry as a list of its key and the tree of its expression. -/
def entryTrees : List (String × Expr) → List Value
  | [] => []
  | (key, e) :: rest => .list [.string key, e.toTree] :: entryTrees rest
termination_by structural es => es

end

end Expr

namespace IncludeCall

def fields (call : IncludeCall) : Fields Value :=
  [("template_id", .string call.templateId), ("variables", call.vars.toTree), ("only", .bool call.only),
    ("ignore_missing", .bool call.ignoreMissing),
    ("span", .map [("start", .int call.span.start), ("end", .int call.span.stop)])]

end IncludeCall

end Inclusion
