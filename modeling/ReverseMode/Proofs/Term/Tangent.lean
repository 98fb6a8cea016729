import ReverseMode.Term.Graph

/-!
# Tangents

Forward-mode differentiation of a term along one variable, by recursion on the term.

**Results.**
* `Node.partials` is the table of local partials, one for each operand of a node.
* `Graph.tangent_eq`: the chain rule as the one equation of tangents.
-/

namespace ReverseMode

variable {κ α : Type} [Exponent κ] [Scalar κ α]

/-- The partials of a node in its operands, from the values of these. -/
def Node.partials : Node κ α α → List α
  | const _ | zero | var _ => []
  | sum vs => vs.map fun _ => 1
  | product a b => [b, a]
  | constPower b k => [Scalar.constPowerPartial b k]
  | termPower a b =>
      let d := Scalar.powPartials a b (Scalar.pow a b)
      [d.1, d.2]
  | exp a => [Scalar.exp a]
  | ln a => [Scalar.recip a]
  | unary f a => [f.derivative a]
  | binary f a b =>
      let d := f.partials a b
      [d.1, d.2]
  | nary f vs => f.gradient vs

namespace Graph

variable (g : Graph κ α)

/-- The partials of a term in its operands, where `x` gives the values of variables. -/
def partialsAt (x : g.Term → α) (t : g.Term) : List α :=
  ((g.node t).mapOperands fun u _ => g.value x u).partials

/-- The derivative of a term along a variable: 1 at the variable, 0 at other variables, and at
any other term the sum of the partials times the derivatives of the operands. -/
def tangent (x : g.Term → α) (k : g.Variable) : g.Term → α :=
  g.fold fun t n =>
    if g.isVariable t then
      if t = k.1 then 1 else 0
    else (List.zipWith (· * ·) (g.partialsAt x t) n.operands).sum

theorem tangent_eq (x : g.Term → α) (k : g.Variable) (t : g.Term) :
    g.tangent x k t =
      if g.isVariable t then
        if t = k.1 then 1 else 0
      else
        (List.zipWith (· * ·) (g.partialsAt x t) ((g.operands t).map (g.tangent x k))).sum := by
  rw [tangent, fold_eq, Node.operands_mapOperands_const]
  rfl

end Graph
end ReverseMode
