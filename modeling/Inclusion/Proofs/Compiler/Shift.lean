import Inclusion.Compiler
import Inclusion.Proofs.Directive.Shift
/-!
# Compiling in a longer text

Compiling a directive with an offset is compiling it without one and adding the offset to the places of the call or
of the error. The compiler afterwards is the same, since nothing that it remembers is a place.
-/

namespace Inclusion

def IncludeCall.shift (call : IncludeCall) (n : Nat) : IncludeCall :=
  { call with span := call.span.shift n }

def CompileError.shift (e : CompileError) (n : Nat) : CompileError :=
  match e with
  | .malformed faults => .malformed (faults.map fun f => f.shift n)
  | .catalog e span => .catalog e (span.map fun s => s.shift n)
  | .config e span => .config e (span.map fun s => s.shift n)
  | .unknownTag tag span => .unknownTag tag (span.shift n)

theorem leadingTag_shift (n : Nat) (cs : List Char) :
    leadingTag n cs = ((leadingTag 0 cs).1, (leadingTag 0 cs).2.shift n) := by
  unfold leadingTag Span.shift
  dsimp only
  congr 2 <;> omega

namespace Compiler

/-- The answer in a text with `n` bytes put before it. -/
def shiftAnswer (n : Nat) (answer : Except CompileError IncludeCall × Compiler) : Except CompileError IncludeCall × Compiler :=
  (shiftResult CompileError.shift IncludeCall.shift n answer.1, answer.2)

theorem reference_shift (d : Directive) (n : Nat) :
    (d.shift n).reference = shiftResult Fault.shift (fun r _ => r) n d.reference := by
  unfold Directive.reference
  cases h : d.component.value.constant? with
  | none =>
    simp only [Directive.shift, Located.shift, h]
    rfl
  | some text =>
    simp only [Directive.shift, Located.shift, h]
    cases Reference.parse text <;> rfl

theorem call_shift (r : Resolution) (d : Directive) (n : Nat) : r.call (d.shift n) = (r.call d).shift n := by
  unfold Resolution.call Directive.shift IncludeCall.shift
  simp [Function.comp_def, Located.shift]

theorem resolve_shift (disk : Disk) (d : Directive) (n : Nat) (c : Compiler) :
    c.resolve disk (d.shift n) =
      (shiftResult CompileError.shift (fun r _ => r) n (c.resolve disk d).1, (c.resolve disk d).2) := by
  have hskips : (d.shift n).skipsContext = d.skipsContext := by
    unfold Directive.skipsContext Directive.shift
    simp
  unfold resolve
  rw [reference_shift, hskips]
  cases d.reference with
  | error f => rfl
  | ok reference =>
    dsimp only [shiftResult]
    cases c.catalog.resolve disk reference.component with
    | mk found catalog =>
      cases found with
      | error e => rfl
      | ok component =>
        dsimp only
        cases d.skipsContext with
        | true => rfl
        | false =>
          simp only [Bool.false_eq_true, if_false]
          cases c.configs.context disk component.configPath reference.variant with
          | mk context configs => cases context <;> rfl

theorem compileAt_shift (disk : Disk) (n : Nat) (cs : List Char) (c : Compiler) :
    c.compileAt disk n cs = shiftAnswer n (c.compileAt disk 0 cs) := by
  unfold compileAt
  rw [leadingTag_shift n cs]
  dsimp only
  split
  · rw [Directive.parse_eq_shift _ n]
    cases Directive.parse (leadingTag 0 cs).1 0 cs with
    | error f => rfl
    | ok d =>
      dsimp only [shiftResult]
      rw [resolve_shift]
      cases c.resolve disk d with
      | mk result c' =>
        cases result with
        | error e => rfl
        | ok r =>
          dsimp only [shiftResult]
          rw [call_shift]
          rfl
  · rfl

end Compiler

end Inclusion
