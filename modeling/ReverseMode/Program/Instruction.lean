import ReverseMode.Error
import ReverseMode.Function

/-!
# Instructions

A program has three lists of instructions over a set of registers: one value, one
derivative and one adjoint sum per slot of the tape it was made from, and one cached
partial per edge.

* `ValueInstruction` computes one slot from earlier ones.
* `PartialsInstruction` calls a function once for all its partials and caches them.
* `Accumulation` adds to the adjoint of one slot what one operand place of a later slot
  passes back.

Running an instruction first reads, which may fail on a register that does not exist, and
then writes.
-/

namespace ReverseMode

section Instructions

/-- How a value is computed from registers. -/
inductive Compute (κ α : Type) where
  /-- A sum of two operands, without a leading 0. -/
  | add (a b : Nat)
  | sum (operands : List Nat)
  | mul (a b : Nat)
  | copy (a : Nat)
  | square (a : Nat)
  | power (a : Nat) (k : κ)
  | termPower (a b : Nat)
  | exp (a : Nat)
  | ln (a : Nat)
  | unary (f : UnaryFn α) (a : Nat)
  | binary (f : BinaryFn α) (a b : Nat)
  | nary (f : NaryFn α) (operands : List Nat)

/-- Computes the value of slot `target`. -/
structure ValueInstruction (κ α : Type) where
  target : Nat
  compute : Compute κ α

/-- A call for the partials of a function. -/
inductive PartialsCall (α : Type) where
  | unary (f : UnaryFn α) (a : Nat)
  | binary (f : BinaryFn α) (a b : Nat)
  | nary (f : NaryFn α) (operands : List Nat)

/-- Caches the partials of slot `slot` in the places of its edges, from `first` on. -/
structure PartialsInstruction (α : Type) where
  slot : Nat
  first : Nat
  call : PartialsCall α

/-- By what an adjoint is multiplied on its way back. -/
inductive Factor (κ : Type) where
  /-- By nothing: the operand of a sum. -/
  | unit
  /-- By the value of a slot. -/
  | value (s : Nat)
  /-- By the derivative of a constant power at the value of a slot. -/
  | power (s : Nat) (k : κ)
  /-- By the partial of `b ^ e` in its base. -/
  | base (b e : Nat)
  /-- By the partial of `b ^ e` in its exponent. -/
  | exponent (b e : Nat)
  /-- By the reciprocal of the value of a slot. -/
  | recip (s : Nat)
  /-- By a cached partial. -/
  | cached (edge : Nat)

/-- Adds to the adjoint of slot `target` what operand `position` of slot `consumer` passes
back to it. -/
structure Accumulation (κ : Type) where
  target : Nat
  consumer : Nat
  position : Nat
  factor : Factor κ

end Instructions

/-- The working storage of a program. -/
structure Registers (α : Type) where
  values : Array α
  diffs : Array α
  /-- Cached partials, in the places of the tape's edges. -/
  partials : Array α

namespace Registers

variable {κ α : Type}

def value (r : Registers α) (s : Nat) : Except (Fault κ) α :=
  match r.values[s]? with
  | some v => .ok v
  | none => .error .outOfBounds

def diff (r : Registers α) (s : Nat) : Except (Fault κ) α :=
  match r.diffs[s]? with
  | some d => .ok d
  | none => .error .outOfBounds

def cachedPartial (r : Registers α) (edge : Nat) : Except (Fault κ) α :=
  match r.partials[edge]? with
  | some w => .ok w
  | none => .error .outOfBounds

def setValue (r : Registers α) (s : Nat) (v : α) : Registers α :=
  { r with values := r.values.setIfInBounds s v }

/-- Writes the coordinates of a point to the leading values. -/
def setPoint (r : Registers α) (point : List α) : Registers α :=
  { r with values := point.zipIdx.foldl (fun vs x => vs.setIfInBounds x.2 x.1) r.values }

/-- Writes partials to the cache from `first` on. -/
def setPartials (r : Registers α) (first : Nat) (ws : List α) : Registers α :=
  { r with
    partials := (ws.zipIdx first).foldl (fun ps x => ps.setIfInBounds x.2 x.1) r.partials }

/-- Every adjoint 0, the output's 1. -/
def seed [Zero α] [One α] (r : Registers α) : Registers α :=
  { r with
    diffs := (r.diffs.map fun _ => 0).setIfInBounds (r.diffs.size - 1) 1 }

/-- Adds to the adjoint of a slot. -/
def addDiff [Add α] (r : Registers α) (s : Nat) (d : α) : Registers α :=
  { r with diffs := r.diffs.modify s (· + d) }

end Registers

section Execution

variable {κ α : Type} [Exponent κ] [Scalar κ α]

/-- The value that a computation gives. -/
def Compute.run (r : Registers α) : Compute κ α → Except (Fault κ) α
  | add a b => do return (← r.value a) + (← r.value b)
  | sum as => do return (← as.mapM r.value).foldl (· + ·) 0
  | mul a b => do return (← r.value a) * (← r.value b)
  | copy a => r.value a
  | square a => do
      let v ← r.value a
      return v * v
  | power a k => do return Scalar.constPower (← r.value a) k
  | termPower a b => do return Scalar.pow (← r.value a) (← r.value b)
  | exp a => do return Scalar.exp (← r.value a)
  | ln a => do return Scalar.ln (← r.value a)
  | unary f a => do return f.eval (← r.value a)
  | binary f a b => do return f.eval (← r.value a) (← r.value b)
  | nary f as => do return f.eval (← as.mapM r.value)

/-- The partials that a call gives. -/
def PartialsCall.run (r : Registers α) : PartialsCall α → Except (Fault κ) (List α)
  | unary f a => do return [f.derivative (← r.value a)]
  | binary f a b => do
      let (da, db) := f.partials (← r.value a) (← r.value b)
      return [da, db]
  | nary f as => do return f.gradient (← as.mapM r.value)

/-- What is passed back: the adjoint of the consumer times the factor. -/
def Accumulation.amount (r : Registers α) (a : Accumulation κ) : Except (Fault κ) α := do
  let d ← r.diff a.consumer
  match a.factor with
  | .unit => return d
  | .value s => return d * (← r.value s)
  | .power s k => return d * Scalar.constPowerPartial (← r.value s) k
  | .base b e =>
      return d * (Scalar.powPartials (← r.value b) (← r.value e) (← r.value a.consumer)).1
  | .exponent b e =>
      return d * (Scalar.powPartials (← r.value b) (← r.value e) (← r.value a.consumer)).2
  | .recip s => return d * Scalar.recip (← r.value s)
  | .cached e => return d * (← r.cachedPartial e)

end Execution
end ReverseMode
