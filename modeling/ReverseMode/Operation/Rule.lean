import ReverseMode.Error

/-!
# Value and partial rules

The rules of the built-in operations of one or two operands.  `Rule.value` computes a
slot's value from the values of its operands, and `Rule.partials` the two local partials,
the second of which is 0 when there is one operand.  Both engines compute with these
rules, so their results agree to the last bit.

Sums and functions take any number of operands, or are known only to the tape: the engines
treat them themselves, and the rules refuse them.
-/

namespace ReverseMode
namespace Rule

variable {κ α : Type} [Exponent κ] [Scalar κ α]

/-- The value of `op` at the operands `a` and `b`. -/
def value (op : Op κ) (a b : α) : Except (Fault κ) α :=
  match op with
  | .product => .ok (a * b)
  | .constPower k => .ok (Scalar.constPower a k)
  | .termPower => .ok (Scalar.pow a b)
  | .exp => .ok (Scalar.exp a)
  | .ln => .ok (Scalar.ln a)
  | .input | .const => .error .leafValue
  | .sum | .unary _ | .binary _ | .nary _ => .error (.engineOperation op)

/-- The partials of `op` in `a` and in `b`, where `r` is its value there. -/
def partials (op : Op κ) (a b r : α) : Except (Fault κ) (α × α) :=
  match op with
  | .product => .ok (b, a)
  | .constPower k => .ok (Scalar.constPowerPartial a k, 0)
  | .termPower => .ok (Scalar.powPartials a b r)
  | .exp => .ok (r, 0)
  | .ln => .ok (Scalar.recip a, 0)
  | .input | .const => .ok (0, 0)
  | .sum | .unary _ | .binary _ | .nary _ => .error (.engineOperation op)

end Rule
end ReverseMode
