import ReverseMode.Scalar
import ReverseMode.Text.Decimal

/-!
# Operations of a tape

`Op κ` is what one slot of a tape computes from the slots it reads.  A slot that calls a
function names it by a *handle*, a position in the table of its arity that the tape
carries beside its slots.

`Op.accepts` is the arity of an operation, and `Op.listing` its text in listings and in
the messages of faults.
-/

namespace ReverseMode

/-- The operation of a tape slot. -/
inductive Op (κ : Type) where
  /-- A variable, whose value is copied from the point. -/
  | input
  /-- A constant, fixed when the tape is built. -/
  | const
  /-- The sum of all operands. -/
  | sum
  | product
  /-- The operand raised to a constant exponent. -/
  | constPower (k : κ)
  /-- The first operand raised to the second. -/
  | termPower
  | exp
  | ln
  | unary (handle : Nat)
  | binary (handle : Nat)
  | nary (handle : Nat)
deriving DecidableEq, Repr

namespace Op

variable {κ : Type}

/-- Whether the operation calls a function of the tape's tables. -/
def isCallback : Op κ → Bool
  | unary _ | binary _ | nary _ => true
  | _ => false

def isInput : Op κ → Bool
  | input => true
  | _ => false

def isConst : Op κ → Bool
  | const => true
  | _ => false

/-- Whether the operation takes `n` operands. -/
def accepts (op : Op κ) (n : Nat) : Bool :=
  match op with
  | input | const => n == 0
  | sum => 2 ≤ n
  | nary _ => 1 ≤ n
  | product | termPower | binary _ => n == 2
  | constPower _ | exp | ln | unary _ => n == 1

/-- Whether the exponent of a constant power is finite and non-zero; other operations have
none to check. -/
def exponentValid [Exponent κ] : Op κ → Bool
  | constPower k => Exponent.valid k
  | _ => true

/-- The text of an operation in listings. -/
def listing [Text.Numeral κ] : Op κ → String
  | input => "Input"
  | const => "Const"
  | sum => "Sum"
  | product => "Product"
  | constPower k => "ConstPower(" ++ Text.Numeral.listing k ++ ")"
  | termPower => "TermPower"
  | exp => "Exp"
  | ln => "Log"
  | unary h => "Unary(CallbackHandle(" ++ toString h ++ "))"
  | binary h => "Binary(CallbackHandle(" ++ toString h ++ "))"
  | nary h => "Nary(CallbackHandle(" ++ toString h ++ "))"

end Op
end ReverseMode
