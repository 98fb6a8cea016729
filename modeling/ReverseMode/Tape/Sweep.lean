import ReverseMode.Operation.Rule
import ReverseMode.Sweep
import ReverseMode.Tape.Basic

/-!
# Interpreted evaluation

The interpreted engine passes over the slots of a tape and looks at each operation anew.

* `forward` writes the value of every slot past the variables, in slot order.
* `forwardWithWeights` also writes to each edge the partial derivative of its slot.
* `reverse` starts from adjoint 1 at the output and adds, from the last slot down to the
  first computed one, the adjoint of a slot times the weight of each of its edges to the
  adjoint of the edge's source.  A zero adjoint is not skipped, so NaN and infinite
  weights spread as the arithmetic has it.
* `evaluate` and `differentiate` put these together.

Every function gives a result and the tape it leaves.  A fault leaves the tape with what
was written up to there.
-/

namespace ReverseMode
namespace Tape

variable {κ α : Type} [Exponent κ] [Scalar κ α]

section Operations

/-- The `k`-th of a list of operands. -/
def operand (args : List α) (k : Nat) : Except (Fault κ) α :=
  match args[k]? with
  | some a => .ok a
  | none => .error .outOfBounds

/-- The value of an operation at its operands.  A leaf keeps the value `stored` in it. -/
def opValue (t : Tape κ α) (op : Op κ) (stored : α) (args : List α) :
    Except (Fault κ) α :=
  match op with
  | .input | .const => .ok stored
  | .sum => .ok (args.foldl (· + ·) 0)
  | .unary h => do
      let f ← t.unaryFn h
      return f.eval (← operand args 0)
  | .binary h => do
      let f ← t.binaryFn h
      return f.eval (← operand args 0) (← operand args 1)
  | .nary h => do
      let f ← t.naryFn h
      return f.eval args
  | op => do Rule.value op (← operand args 0) (args.getD 1 0)

/-- The partials of an operation in its operands, where `result` is its value there. -/
def opWeights (t : Tape κ α) (op : Op κ) (args : List α) (result : α) :
    Except (Fault κ) (List α) :=
  match op with
  | .input | .const => .ok []
  | .sum => .ok (args.map fun _ => 1)
  | .unary h => do
      let f ← t.unaryFn h
      return [f.derivative (← operand args 0)]
  | .binary h => do
      let f ← t.binaryFn h
      let (da, db) := f.partials (← operand args 0) (← operand args 1)
      return [da, db]
  | .nary h => do
      let f ← t.naryFn h
      return f.gradient args
  | op => do
      let (da, db) ← Rule.partials op (← operand args 0) (args.getD 1 0) result
      return [da, db].take args.length

end Operations

section Reads

/-- The values that a slot reads. -/
def operandValues (t : Tape κ α) (i : Nat) : Except (Fault κ) (List α) := do
  (← t.inputs i).mapM fun e => t.valueAt e.source

/-- The value that a slot should have, from the values before it. -/
def computedValue (t : Tape κ α) (i : Nat) : Except (Fault κ) α := do
  let s ← t.slot i
  t.opValue s.op s.value (← t.operandValues i)

/-- The value that a slot should have and the weights its edges should have. -/
def computedPartials (t : Tape κ α) (i : Nat) : Except (Fault κ) (α × List α) := do
  let s ← t.slot i
  let args ← t.operandValues i
  let result ← t.opValue s.op s.value args
  return (result, ← t.opWeights s.op args result)

/-- What a slot passes back: for each of its edges the source and the amount. -/
def contributions (t : Tape κ α) (i : Nat) : Except (Fault κ) (List (Nat × α)) := do
  let s ← t.slot i
  (← t.edgesIn s.inputs).mapM fun e =>
    if e.source < t.size then .ok (e.source, s.adjoint * e.weight)
    else .error .outOfBounds

end Reads

section Writes

def setValue (t : Tape κ α) (i : Nat) (v : α) : Tape κ α :=
  { t with slots := t.slots.modify i fun s => { s with value := v } }

/-- Writes weights to the edges from `start` on. -/
def setWeights (t : Tape κ α) (start : Nat) : List α → Tape κ α
  | [] => t
  | w :: ws =>
      setWeights { t with edges := t.edges.modify start fun e => { e with weight := w } }
        (start + 1) ws

/-- Writes a value to a slot and weights to its edges. -/
def setPartials (t : Tape κ α) (i : Nat) (computed : α × List α) : Tape κ α :=
  let start := (t.slots[i]?.map (·.inputs.start)).getD 0
  (t.setWeights start computed.2).setValue i computed.1

/-- Adds amounts to adjoints, one after another. -/
def addAdjoints (t : Tape κ α) (amounts : List (Nat × α)) : Tape κ α :=
  { t with
    slots := amounts.foldl
      (fun slots a => slots.modify a.1 fun s => { s with adjoint := s.adjoint + a.2 })
      t.slots }

/-- Writes the coordinates of a point to the leading slots. -/
def setPoint (t : Tape κ α) (point : List α) : Tape κ α :=
  { t with
    slots := point.zipIdx.foldl
      (fun slots x => slots.modify x.2 fun s => { s with value := x.1 })
      t.slots }

/-- Every adjoint 0, the output's 1. -/
def seed (t : Tape κ α) : Tape κ α :=
  { t with
    slots := (t.slots.map fun s => { s with adjoint := 0 }).modify (t.slots.size - 1)
      fun s => { s with adjoint := 1 } }

end Writes

section Sweeps

/-- The indices of the computed slots, in order. -/
def computed (t : Tape κ α) : List Nat :=
  List.range' t.dimension (t.size - t.dimension)

/-- Loads a point and writes all values; the edges are left alone. -/
def forward (point : List α) (t : Tape κ α) : Except (Fault κ) Unit × Tape κ α :=
  if point.length = t.dimension then
    let t := t.setPoint point
    let places := t.computed
    sweep computedValue setValue places t
  else (.error .pointLength, t)

/-- Loads a point and writes all values and all weights. -/
def forwardWithWeights (point : List α) (t : Tape κ α) :
    Except (Fault κ) Unit × Tape κ α :=
  if point.length = t.dimension then
    let t := t.setPoint point
    let places := t.computed
    sweep computedPartials setPartials places t
  else (.error .pointLength, t)

/-- Sums adjoints from the output back, along the weights that the edges have. -/
def reverse (t : Tape κ α) : Except (Fault κ) Unit × Tape κ α :=
  let t := t.seed
  let places := t.computed.reverse
  sweep contributions (fun t _ amounts => t.addAdjoints amounts) places t

/-- The adjoints of the variables. -/
def gradient (t : Tape κ α) : List α :=
  (t.slots.extract 0 t.dimension).toList.map (·.adjoint)

/-- The value of the term at a point. -/
def evaluate (point : List α) (t : Tape κ α) : Except (Fault κ) α × Tape κ α :=
  match t.forward point with
  | (.error e, t) => (.error e, t)
  | (.ok _, t) => (t.outputValue, t)

/-- The value and the gradient of the term at a point, where the caller has room for
`room` components of the gradient. -/
def differentiate (point : List α) (room : Nat) (t : Tape κ α) :
    Except (Fault κ) (α × List α) × Tape κ α :=
  if room = t.dimension then
    match t.forwardWithWeights point with
    | (.error e, t) => (.error e, t)
    | (.ok _, t) =>
        match t.reverse with
        | (.error e, t) => (.error e, t)
        | (.ok _, t) => (t.outputValue.map fun v => (v, t.gradient), t)
  else (.error .gradientLength, t)

end Sweeps
end Tape
end ReverseMode
