import ReverseMode.Error
import ReverseMode.Function

/-!
# Nodes of a term

`Node κ α ι` is one layer of a term: a kind of node together with operands in `ι`.  With
terms for operands it is what a graph stores at a term; with values for operands it is
what remains of a term once its operands are evaluated, with texts what remains once they
are printed.  A recursion over terms is therefore a function from a layer of results to a
result.
-/

namespace ReverseMode

/-- The twelve kinds of node, with operands in `ι`. -/
inductive Node (κ α ι : Type) where
  | const (c : α)
  | zero
  /-- A variable, which may have a name. -/
  | var (name : Option String)
  /-- The sum of two or more terms. -/
  | sum (terms : List ι)
  | product (left right : ι)
  /-- `base ^ k`, where `k` is finite and non-zero. -/
  | constPower (base : ι) (k : κ)
  | termPower (base exponent : ι)
  | exp (arg : ι)
  | ln (arg : ι)
  | unary (f : UnaryFn α) (arg : ι)
  | binary (f : BinaryFn α) (left right : ι)
  /-- A function of one or more terms. -/
  | nary (f : NaryFn α) (terms : List ι)

namespace Node

variable {κ α ι β : Type}

section Operands

/-- The operands in order, one entry per place. -/
def operands : Node κ α ι → List ι
  | const _ | zero | var _ => []
  | sum ts | nary _ ts => ts
  | product a b | termPower a b | binary _ a b => [a, b]
  | constPower a _ | exp a | ln a | unary _ a => [a]

def isVariable : Node κ α ι → Bool
  | var _ => true
  | _ => false

/-- The node with each operand replaced by what `f` makes of it. -/
def mapOperands (n : Node κ α ι) (f : (i : ι) → i ∈ n.operands → β) : Node κ α β :=
  match n, f with
  | const c, _ => const c
  | zero, _ => zero
  | var name, _ => var name
  | sum ts, f => sum (ts.attach.map fun i => f i.1 i.2)
  | product a b, f => product (f a (by simp [operands])) (f b (by simp [operands]))
  | constPower a k, f => constPower (f a (by simp [operands])) k
  | termPower a b, f => termPower (f a (by simp [operands])) (f b (by simp [operands]))
  | exp a, f => exp (f a (by simp [operands]))
  | ln a, f => ln (f a (by simp [operands]))
  | unary h a, f => unary h (f a (by simp [operands]))
  | binary h a b, f => binary h (f a (by simp [operands])) (f b (by simp [operands]))
  | nary h ts, f => nary h (ts.attach.map fun i => f i.1 i.2)

theorem operands_mapOperands (n : Node κ α ι) (f : (i : ι) → i ∈ n.operands → β) :
    (n.mapOperands f).operands = n.operands.attach.map fun i => f i.1 i.2 := by
  cases n <;> rfl

theorem operands_mapOperands_const (n : Node κ α ι) (f : ι → β) :
    (n.mapOperands fun i _ => f i).operands = n.operands.map f := by
  rw [operands_mapOperands, List.attach_map_val]

theorem isVariable_mapOperands (n : Node κ α ι) (f : (i : ι) → i ∈ n.operands → β) :
    (n.mapOperands f).isVariable = n.isVariable := by
  cases n <;> rfl

end Operands

section Admission

variable [Exponent κ]

/-- Why a node may not stand in a term: too few operands, or an exponent that is zero or
not finite. -/
def refusal? : Node κ α ι → Option (ArgumentError κ)
  | sum ts =>
      if 2 ≤ ts.length then none else some (.tooFewTerms .sum 2 ts.length)
  | constPower _ k => if Exponent.valid k then none else some (.invalidExponent k)
  | nary _ ts =>
      if 1 ≤ ts.length then none else some (.tooFewTerms .naryFunction 1 ts.length)
  | _ => none

end Admission

section Results

variable [Exponent κ] [Scalar κ α]

/-- The value of a node from the values of its operands, where `x` is the value of a
variable.  A sum is folded from the left and starts at 0. -/
def value (x : α) : Node κ α α → α
  | const c => c
  | zero => 0
  | var _ => x
  | sum vs => vs.foldl (· + ·) 0
  | product a b => a * b
  | constPower b k => Scalar.constPower b k
  | termPower b e => Scalar.pow b e
  | exp a => Scalar.exp a
  | ln a => Scalar.ln a
  | unary f a => f.eval a
  | binary f a b => f.eval a b
  | nary f vs => f.eval vs

end Results

section Texts

variable [Text.Numeral κ] [Text.Numeral α]

/-- The text of a node from the texts of its operands, where `anonymous` names a variable
that has no name.  Sums and products have parentheses of their own; powers have none. -/
def text (anonymous : String) : Node κ α String → String
  | const c => Text.Numeral.plain c
  | zero => "0"
  | var name => name.getD anonymous
  | sum ts => "(" ++ String.intercalate " + " ts ++ ")"
  | product a b => "(" ++ a ++ " * " ++ b ++ ")"
  | constPower b k => b ++ "^" ++ Text.Numeral.plain k
  | termPower b e => b ++ "^" ++ e
  | exp a => "exp(" ++ a ++ ")"
  | ln a => "ln(" ++ a ++ ")"
  | unary f a => f.label.getD "unary" ++ "(" ++ a ++ ")"
  | binary f a b => f.label.getD "binary" ++ "(" ++ a ++ ", " ++ b ++ ")"
  | nary f ts => f.label.getD "nary" ++ "(" ++ String.intercalate ", " ts ++ ")"

end Texts
end Node
end ReverseMode
