import Inclusion.Main
import Inclusion.Proofs.Composition
import Inclusion.Proofs.Grammar
import Inclusion.Proofs.Grammar.Unambiguous
import Inclusion.Proofs.Grammar.Directive
import Inclusion.Proofs.Grammar.Parse
import Inclusion.Proofs.Template.Scan
import Inclusion.Proofs.Token.Piece
import Inclusion.Proofs.Template.Agreement
import Inclusion.Proofs.Directive.Shift
import Inclusion.Proofs.Compiler.Shift
import Inclusion.Proofs.Compiler.Template
import Inclusion.Proofs.Catalog.Index
import Inclusion.Proofs.Catalog.Run
import Inclusion.Proofs.Disk.Tree
import Inclusion.Proofs.Disk.Path
import Inclusion.Proofs.Catalog.Build
import Inclusion.Proofs.Grammar.Source
import Inclusion.Proofs.Template.RoundTrip
import Inclusion.Proofs.Disk.Spelling
import Inclusion.Proofs.Component.Kept
import Inclusion.Proofs.Compiler.Run
import Inclusion.Proofs.Grammar.Viable
import Inclusion.Proofs.Directive.Fault
import Inclusion.Proofs.Disk.Below
import Inclusion.Proofs.Catalog.Lookup
import Inclusion.Proofs.Compiler.Listed
import Inclusion.Proofs.Disk.Shape
import Inclusion.Proofs.Expr.Nodes
import Inclusion.Proofs.Compiler.Isolation
import Inclusion.Proofs.Directive.Expected
import Inclusion.Proofs.Directive.Place
import Inclusion.Proofs.Compiler.Place
import Inclusion.Proofs.Component.Loads
import Inclusion.Proofs.Compiler.Tag
import Inclusion.Proofs.Compiler.Effects
import Inclusion.Proofs.Token.Append
import Inclusion.Proofs.Compiler.Wrapped
import Inclusion.Proofs.CommandLine
import Inclusion.Proofs.Component.Shape
import Inclusion.Proofs.Component.Variant
import Inclusion.Proofs.Expr.Regroup
import Inclusion.Proofs.Expr.Written
import Inclusion.Proofs.Template.Segments
import Inclusion.Proofs.Text.Slice
import Inclusion.Proofs.Template.Append
import Inclusion.Proofs.Template.Blocks
import Inclusion.Proofs.Token.Part
import Inclusion.Proofs.Directive.Exact
import Inclusion.Proofs.Expr.Integer
import Inclusion.Proofs.Reference.Display
import Inclusion.Proofs.Token.Longest
import Inclusion.Proofs.Token.Tiling
import Inclusion.Proofs.Report.Line
import Inclusion.Proofs.Report.Place
