import Inclusion.Catalog
import Inclusion.Component.Store
import Inclusion.Fault
/-!
# Errors of compiling

A directive does not compile because it is malformed, because its tag is not known, because its component
cannot be found, or because the config of its component cannot be read. The last two are not about a place
in the template; they are placed at the directive afterwards.
-/

namespace Inclusion

inductive CompileError
  /-- One fault or more. -/
  | malformed (faults : List Fault)
  | catalog (e : CatalogError) (span : Option Span)
  | config (e : ConfigError) (span : Option Span)
  | unknownTag (tag : String) (span : Span)
  deriving DecidableEq, Repr

namespace CompileError

inductive Kind
  | noRoots
  | unknownComponent
  | duplicateComponent
  | malformedDirective
  | configMissing
  | configMalformed
  | unreadable
  deriving DecidableEq, Repr

def kind : CompileError → Kind
  | malformed _ | unknownTag _ _ => .malformedDirective
  | catalog (.noRoots _) _ => .noRoots
  | catalog (.unknown _) _ => .unknownComponent
  | catalog (.duplicate _ _ _) _ => .duplicateComponent
  | catalog (.unreadable _ _) _ => .unreadable
  | config (.missing _) _ => .configMissing
  | config (.unreadable _ _) _ => .unreadable
  | config (.malformed _ _) _ => .configMalformed

/-- The place of the error, that of the first fault if there are several. -/
def span? : CompileError → Option Span
  | malformed faults => faults.head?.map Fault.span
  | catalog _ span => span
  | config _ span => span
  | unknownTag _ span => some span

/-- Places the error if it has no place yet. -/
def placedAt (place : Span) : CompileError → CompileError
  | catalog e span => catalog e (some (span.getD place))
  | config e span => config e (some (span.getD place))
  | e => e

def configPath? : CompileError → Option Path
  | config e _ => some e.path
  | _ => none

def message : CompileError → String
  | malformed faults => "; ".intercalate (faults.map Fault.line)
  | catalog e _ => e.message
  | config e _ => e.message
  | unknownTag tag _ => "unknown directive tag '" ++ tag ++ "'"

end CompileError

end Inclusion
