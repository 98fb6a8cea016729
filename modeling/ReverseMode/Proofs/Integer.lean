import Mathlib
import ReverseMode.Tape.Basic
import ReverseMode.Term.Graph

/-!
# Integers as scalars

Scalars on which closed terms compute inside a proof.  An operation whose result is not an
integer gives 0.  Addition and multiplication obey the laws of a commutative ring, which no
floating-point type does.

`doubled` and `doubledApart` unfold to one expression, with and without a shared operand, and
`sharedTape` is a tape with a shared operand.
-/

namespace ReverseMode

/-- Exponents that are natural numbers. -/
instance : Exponent Nat where
  one := 1
  isOne k := k == 1
  isTwo k := k == 2
  pred k := k - 1
  valid k := k != 0
  isOne_one := rfl
  valid_one := rfl

instance : Scalar Nat Int where
  recip a := 1 / a
  pow a b := if 0 ≤ b then a ^ b.toNat else 0
  powConst a k := a ^ k
  ofExponent k := k
  exp a := if a = 0 then 1 else 0
  ln _ := 0
  undefined := 0

/-- The terms `x`, `x * x` and `x * x + x * x`, where the sum uses the one product twice. -/
def doubled : Graph Nat Int where
  nodes := #[.var none, .product 0 0, .sum [1, 1]]
  node_ok := by decide

def doubled.x : doubled.Variable := ⟨⟨0, by decide⟩, by cbv⟩

def doubled.root : doubled.Term := ⟨2, by decide⟩

/-- The same sum with a product of its own at each place. -/
def doubledApart : Graph Nat Int where
  nodes := #[.var none, .product 0 0, .product 0 0, .sum [1, 2]]
  node_ok := by decide

def doubledApart.x : doubledApart.Variable := ⟨⟨0, by decide⟩, by cbv⟩

def doubledApart.root : doubledApart.Term := ⟨3, by decide⟩

/-- The tape of `x * x + x`. -/
def sharedTape : Tape Nat Int where
  slots := #[
    { op := .input, value := 0, adjoint := 0, inputs := .ofNat 0 0 },
    { op := .product, value := 0, adjoint := 0, inputs := .ofNat 0 2 },
    { op := .sum, value := 0, adjoint := 0, inputs := .ofNat 2 2 }]
  edges := #[
    { source := 0, weight := 0 }, { source := 0, weight := 0 },
    { source := 1, weight := 0 }, { source := 0, weight := 0 }]
  dimension := 1

end ReverseMode
