import ReverseMode.Term.Graph

/-!
# Building terms

`Build` is the state of a graph under construction: an action may add nodes and gives a
term, or it is refused and leaves the graph with the nodes added so far.

Arithmetic on terms adds fresh nodes and simplifies nothing.

| expression | nodes added                       |
|------------|-----------------------------------|
| `a + b`    | sum of `a` and `b`                |
| `a - b`    | sum of `a` and the negative of `b`|
| `a * b`    | product of `a` and `b`            |
| `a / b`    | product of `a` and `b ^ -1`       |
| `-a`       | product of the constant -1 and `a`|
-/

namespace ReverseMode

/-- Actions that add nodes to a graph. -/
abbrev Build (κ α : Type) [Exponent κ] : Type → Type :=
  ExceptT (ArgumentError κ) (StateM (Graph κ α))

namespace Build

/-- Adds one node and gives the new term. -/
def node {κ α : Type} [Exponent κ] (n : Node κ α Nat) : Build κ α Nat :=
  ExceptT.mk (Graph.add n)

section Binary64

def add (a b : Nat) : Build Float Float Nat :=
  node (.sum [a, b])

def mul (a b : Nat) : Build Float Float Nat :=
  node (.product a b)

def neg (a : Nat) : Build Float Float Nat := do
  let m ← node (.const (-1.0))
  node (.product m a)

def sub (a b : Nat) : Build Float Float Nat := do
  let n ← neg b
  node (.sum [a, n])

def div (a b : Nat) : Build Float Float Nat := do
  let r ← node (.constPower b (-1.0))
  node (.product a r)

/-- The square root, as the power 1/2. -/
def sqrt (a : Nat) : Build Float Float Nat :=
  node (.constPower a 0.5)

/-- The square, as the power 2. -/
def square (a : Nat) : Build Float Float Nat :=
  node (.constPower a 2.0)

end Binary64
end Build
end ReverseMode
