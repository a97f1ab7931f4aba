import Inclusion.Fault
/-!
# Reading tokens

A reader takes one token at a time, and it never looks ahead. It stops at the first token for which it has no step, or
at an end where what it has read is not complete, and says what could have come next.
-/

namespace Inclusion

/-- Where reading stopped: how many tokens were read, and what could have come next. -/
structure Stop where
  index : Nat
  expected : List Expectation
  deriving DecidableEq, Repr

/-- A reader with states of type `σ`, which reads tokens as something of type `α`. -/
structure TokenReader (σ α : Type) where
  start : σ
  /-- The state after one more token, if the token can stand there. -/
  step : σ → Token → Option σ
  /-- What has been read, if it can end there. -/
  finish : σ → Option α
  expected : σ → List Expectation

namespace TokenReader

variable {σ α : Type}

/-- Reads tokens to their end, after `n` others. -/
def readFrom (reader : TokenReader σ α) (n : Nat) (s : σ) : List Token → Except Stop α
  | [] =>
    match reader.finish s with
    | some a => .ok a
    | none => .error ⟨n, reader.expected s⟩
  | t :: rest =>
    match reader.step s t with
    | some s' => reader.readFrom (n + 1) s' rest
    | none => .error ⟨n, reader.expected s⟩

/-- What the tokens are, all of them. -/
def read (reader : TokenReader σ α) (tokens : List Token) : Except Stop α :=
  reader.readFrom 0 reader.start tokens

end TokenReader

end Inclusion
