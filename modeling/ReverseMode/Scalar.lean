/-!
# Scalars and exponents

The numbers a program computes with, as two classes of bare operations.

* `Exponent κ`: constant exponents.  A power node keeps its exponent in `κ`, whatever
  scalar type it is later evaluated in.
* `Scalar κ α`: the operations that values, partials and adjoints use.

`Scalar` carries no laws: binary floating point obeys few of them, and most facts about
terms, tapes and programs hold for any operations whatever.  A fact that needs an identity
takes it as a hypothesis.  `Exponent` says of its tests only that they pass the exponent 1.
-/

namespace ReverseMode

/-- Constant exponents and the tests that the power rules make on them. -/
class Exponent (κ : Type) where
  /-- The exponent under which a power is its base. -/
  one : κ
  /-- Whether an exponent counts as 1. -/
  isOne : κ → Bool
  /-- Whether an exponent counts as 2. -/
  isTwo : κ → Bool
  /-- The exponent one less, as the derivative of a power needs it. -/
  pred : κ → κ
  /-- Whether an exponent may stand in a term: finite and non-zero. -/
  valid : κ → Bool
  isOne_one : isOne one = true
  valid_one : valid one = true

/-- Scalars over which terms are evaluated and differentiated. -/
class Scalar (κ : outParam Type) (α : Type) extends
    Zero α, One α, Add α, Sub α, Mul α where
  /-- `1 / a`. -/
  recip : α → α
  /-- `a ^ b` for two scalars. -/
  pow : α → α → α
  /-- `a ^ k` for a constant exponent. -/
  powConst : α → κ → α
  /-- An exponent read as a scalar. -/
  ofExponent : κ → α
  /-- The exponential function. -/
  exp : α → α
  /-- The natural logarithm. -/
  ln : α → α
  /-- The value that stands for the absence of one. -/
  undefined : α

namespace Scalar

variable {κ α : Type} [Exponent κ] [Scalar κ α]

/-- `b ^ k`, where the exponent 1 gives back the base without computing. -/
def constPower (b : α) (k : κ) : α :=
  if Exponent.isOne k then b else powConst b k

/-- `k · b ^ (k - 1)`, the derivative of `b ^ k` in `b`. -/
def constPowerPartial (b : α) (k : κ) : α :=
  if Exponent.isOne k then 1 else ofExponent k * powConst b (Exponent.pred k)

/-- The partials of `a ^ b` in `a` and in `b`, where `r` is `a ^ b`. -/
def powPartials (a b r : α) : α × α :=
  (b * pow a (b - 1), r * ln a)

end Scalar

/-! ## Floating point

Exponents are binary64 for every scalar type: they are rounded to the scalar type where
they are used, and `k - 1` is taken before that rounding. -/

instance : Exponent Float where
  one := 1.0
  isOne k := k == 1.0
  isTwo k := k == 2.0
  pred k := k - 1.0
  valid k := k.isFinite && !(k == 0.0)
  isOne_one := by decide
  valid_one := by decide

/-- Binary64. -/
instance : Scalar Float Float where
  recip a := 1.0 / a
  pow := Float.pow
  powConst := Float.pow
  ofExponent k := k
  exp := Float.exp
  ln := Float.log
  undefined := 0.0 / 0.0

/-- Binary32. -/
instance : Scalar Float Float32 where
  recip a := 1.0 / a
  pow := Float32.pow
  powConst a k := Float32.pow a k.toFloat32
  ofExponent k := k.toFloat32
  exp := Float32.exp
  ln := Float32.log
  undefined := 0.0 / 0.0

end ReverseMode
