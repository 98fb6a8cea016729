import ReverseMode.Program.Instruction
import ReverseMode.Sweep
import ReverseMode.Tape.Basic

/-!
# Straight-line programs

**Input.**  A tape.

**Algorithm.**  Each operation is looked at once, when the program is made.  The value
routine has one instruction per slot that computes something, in slot order.  The
derivative routine first has one call per slot that calls a function, then one
accumulation per operand place whose source is not a constant: targets from the last slot
down, for each target its consumers from the last down, and for each consumer its operand
places upwards.  A target's adjoint is thus complete before it is read, and its terms come
in the order in which the reverse sweep of a tape adds them.

**Results.**  `Program.ofTape` makes the program, `evaluate` and `differentiate` run it.
Running changes the registers alone; the tape is not needed any more.
-/

namespace ReverseMode

/-- A value routine and a derivative routine with their registers. -/
structure Program (κ α : Type) where
  dimension : Nat
  registers : Registers α
  valueCode : List (ValueInstruction κ α)
  partialsCode : List (PartialsInstruction α)
  accumulationCode : List (Accumulation κ)

namespace Program

variable {κ α : Type} [Exponent κ]

section Values

/-- How slot values are computed by `op` from the slots `sources`; leaves are not. -/
def computeOf (t : Tape κ α) (op : Op κ) (sources : List Nat) :
    Except (Fault κ) (Option (Compute κ α)) :=
  match op, sources with
  | .input, _ | .const, _ => .ok none
  | .sum, [a, b] => .ok (some (.add a b))
  | .sum, as => .ok (some (.sum as))
  | .product, a :: b :: _ => .ok (some (.mul a b))
  | .constPower k, a :: _ =>
      if Exponent.isOne k then .ok (some (.copy a))
      else if Exponent.isTwo k then .ok (some (.square a))
      else .ok (some (.power a k))
  | .termPower, a :: b :: _ => .ok (some (.termPower a b))
  | .exp, a :: _ => .ok (some (.exp a))
  | .ln, a :: _ => .ok (some (.ln a))
  | .unary h, a :: _ => (t.unaryFn h).map fun f => some (.unary f a)
  | .binary h, a :: b :: _ => (t.binaryFn h).map fun f => some (.binary f a b)
  | .nary h, as => (t.naryFn h).map fun f => some (.nary f as)
  | _, _ => .error .outOfBounds

/-- The slots that a slot reads. -/
def sources (t : Tape κ α) (i : Nat) : Except (Fault κ) (List Nat) :=
  (t.inputs i).map fun es => es.map (·.source)

/-- The instruction for the value of slot `i`, if it has one. -/
def valueInstruction? (t : Tape κ α) (i : Nat) :
    Except (Fault κ) (Option (ValueInstruction κ α)) := do
  let s ← t.slot i
  let compute ← computeOf t s.op (← sources t i)
  return compute.map fun c => { target := i, compute := c }

/-- The value routine. -/
def valueRoutine (t : Tape κ α) : Except (Fault κ) (List (ValueInstruction κ α)) := do
  let code ← (List.range' t.dimension (t.size - t.dimension)).mapM (valueInstruction? t)
  return code.filterMap id

end Values

section Derivatives

/-- The call for the partials of slot `i`, if it calls a function. -/
def partialsInstruction? (t : Tape κ α) (i : Nat) :
    Except (Fault κ) (Option (PartialsInstruction α)) := do
  let s ← t.slot i
  let as ← sources t i
  let call? : Option (PartialsCall α) ←
    match s.op, as with
    | .unary h, a :: _ => (t.unaryFn h).map fun f => some (.unary f a)
    | .binary h, a :: b :: _ => (t.binaryFn h).map fun f => some (.binary f a b)
    | .nary h, as => (t.naryFn h).map fun f => some (.nary f as)
    | .unary _, _ | .binary _, _ => .error .outOfBounds
    | _, _ => .ok none
  return call?.map fun call => { slot := i, first := s.inputs.start, call }

/-- The calls that open the derivative routine. -/
def partialsRoutine (t : Tape κ α) : Except (Fault κ) (List (PartialsInstruction α)) := do
  let code ← (List.range t.size).mapM (partialsInstruction? t)
  return code.filterMap id

/-- An operand place: the slot that reads, which of its operands, and the slot read. -/
structure Reading where
  consumer : Nat
  position : Nat
  source : Nat

/-- The operand places of one slot, upwards. -/
def readingsOf (t : Tape κ α) (j : Nat) : Except (Fault κ) (List Reading) := do
  let as ← sources t j
  return as.zipIdx.map fun a => { consumer := j, position := a.2, source := a.1 }

/-- All operand places, consumers from the last slot down. -/
def readings (t : Tape κ α) : Except (Fault κ) (List Reading) := do
  let rs ← (List.range t.size).reverse.mapM (readingsOf t)
  return rs.flatten

/-- For each of `n` slots the places that read it, in the order given. -/
def consumers (n : Nat) (rs : List Reading) : Array (Array Reading) :=
  rs.foldl (fun table r => table.modify r.source (·.push r)) (Array.replicate n #[])

/-- By what the adjoint of a consumer is multiplied for one of its operands. -/
def factorOf (t : Tape κ α) (r : Reading) : Except (Fault κ) (Factor κ) := do
  let s ← t.slot r.consumer
  match s.op with
  | .sum => return .unit
  | .product =>
      match ← sources t r.consumer, r.position with
      | _ :: b :: _, 0 => return .value b
      | a :: _, 1 => return .value a
      | _, _ => throw .outOfBounds
  | .constPower k => return .power r.source k
  | .termPower =>
      match ← sources t r.consumer with
      | a :: b :: _ => return if r.position = 0 then .base a b else .exponent a b
      | _ => throw .outOfBounds
  | .exp => return .value r.consumer
  | .ln => return .recip r.source
  | .unary _ | .binary _ | .nary _ => return .cached (s.inputs.start + r.position)
  | .input | .const => throw .leafOperand

/-- The accumulations into one slot; a constant has none. -/
def accumulationsInto (t : Tape κ α) (table : Array (Array Reading)) (i : Nat) :
    Except (Fault κ) (List (Accumulation κ)) := do
  let s ← t.slot i
  if s.op.isConst then return []
  else
    (table.getD i #[]).toList.mapM fun r => do
      return {
        target := i
        consumer := r.consumer
        position := r.position
        factor := ← factorOf t r }

/-- The accumulations of the derivative routine. -/
def accumulationRoutine (t : Tape κ α) : Except (Fault κ) (List (Accumulation κ)) := do
  let rs ← readings t
  if rs.all (·.source < t.size) then
    let table := consumers t.size rs
    let code ← (List.range t.size).reverse.mapM (accumulationsInto t table)
    return code.flatten
  else throw .outOfBounds

end Derivatives

section Making

variable [Scalar κ α]

/-- Makes both routines, with registers that hold the values of the tape. -/
def generate (t : Tape κ α) : Except (Fault κ) (Program κ α) := do
  let valueCode ← valueRoutine t
  let partialsCode ← partialsRoutine t
  let accumulationCode ← accumulationRoutine t
  return {
    dimension := t.dimension
    registers :=
      { values := t.slots.map (·.value)
        diffs := Array.replicate t.size 0
        partials := Array.replicate t.edges.size 0 }
    valueCode, partialsCode, accumulationCode }

/-- The program of a tape.  A tape that calls functions is refused unless they are
allowed. -/
def ofTape (t : Tape κ α) (allowCallbacks : Bool) : Except (Error κ) (Program κ α) :=
  if 0 < t.callbackCount && !allowCallbacks then
    .error (.callbacksNotSupported t.callbackCount)
  else (generate t).mapError .fault

end Making

section Sizes

omit [Exponent κ]

/-- The length of the value routine. -/
def valueLength (p : Program κ α) : Nat :=
  p.valueCode.length

/-- The length of the derivative routine, the opening calls included. -/
def derivativeLength (p : Program κ α) : Nat :=
  p.partialsCode.length + p.accumulationCode.length

end Sizes

section Running

variable [Scalar κ α]

/-- The value of the last slot; the undefined value if there is none. -/
def outputValue (p : Program κ α) : α :=
  p.registers.values.back?.getD Scalar.undefined

/-- The adjoints of the variables. -/
def gradient (p : Program κ α) : List α :=
  (p.registers.diffs.extract 0 p.dimension).toList

/-- Loads a point and runs the value routine. -/
def runValues (point : List α) : Program κ α → Except (Fault κ) Unit × Program κ α
  | ⟨dimension, registers, valueCode, partialsCode, accumulationCode⟩ =>
      if point.length = dimension then
        let (outcome, registers) :=
          sweep (fun r (i : ValueInstruction κ α) => i.compute.run r)
            (fun r i v => r.setValue i.target v)
            valueCode (registers.setPoint point)
        (outcome, ⟨dimension, registers, valueCode, partialsCode, accumulationCode⟩)
      else
        (.error .pointLength,
          ⟨dimension, registers, valueCode, partialsCode, accumulationCode⟩)

/-- Runs the derivative routine on the values that the registers hold. -/
def runDerivatives : Program κ α → Except (Fault κ) Unit × Program κ α
  | ⟨dimension, registers, valueCode, partialsCode, accumulationCode⟩ =>
      let (opened, registers) :=
        sweep (ε := Fault κ) (fun r (i : PartialsInstruction α) => i.call.run r)
          (fun r i ws => r.setPartials i.first ws)
          partialsCode registers.seed
      match opened with
      | .error e =>
          (.error e, ⟨dimension, registers, valueCode, partialsCode, accumulationCode⟩)
      | .ok _ =>
          let (outcome, registers) :=
            sweep (fun r (a : Accumulation κ) => a.amount r)
              (fun r a d => r.addDiff a.target d)
              accumulationCode registers
          (outcome, ⟨dimension, registers, valueCode, partialsCode, accumulationCode⟩)

/-- The value of the term at a point. -/
def evaluate (point : List α) (p : Program κ α) : Except (Fault κ) α × Program κ α :=
  match p.runValues point with
  | (.error e, p) => (.error e, p)
  | (.ok _, p) => (.ok p.outputValue, p)

/-- The value and the gradient of the term at a point, where the caller has room for
`room` components of the gradient. -/
def differentiate (point : List α) (room : Nat) (p : Program κ α) :
    Except (Fault κ) (α × List α) × Program κ α :=
  if room = p.dimension then
    match p.runValues point with
    | (.error e, p) => (.error e, p)
    | (.ok _, p) =>
        match p.runDerivatives with
        | (.error e, p) => (.error e, p)
        | (.ok _, p) => (.ok (p.outputValue, p.gradient), p)
  else (.error .gradientLength, p)

end Running
end Program
end ReverseMode
