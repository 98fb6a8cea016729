import ReverseMode.Error
import ReverseMode.Function

/-!
# Tapes

A tape is a table of slots in evaluation order beside one table of edges.  The first
`dimension` slots are the variables, the last slot is the output, and every other slot
computes its operation from the slots that its edges name.

A slot's edges are a *window* of the edge table.  Offsets and lengths of windows are
32-bit words, as are the indices that the table hands out.

**Results.**
* `pushInput`, `pushConst` and `pushOp` grow a tape by one slot.  They check before they
  change anything: a refused slot is a `Fault`, and the tape at hand is still the old one.
* `registerUnary`, `registerBinary` and `registerNary` grow the tables of functions, each
  with a counter of its own.
* The rest reads a tape.  Reading past a table is the fault `outOfBounds`.
-/

namespace ReverseMode

section Types

/-- A stretch of the edge table. -/
structure Window where
  offset : UInt32
  length : UInt32
deriving DecidableEq, Repr

/-- What a slot reads: another slot, with the partial derivative in it once a
differentiating sweep has written one. -/
structure Edge (α : Type) where
  source : Nat
  weight : α
deriving DecidableEq, Repr

/-- One compiled node. -/
structure Slot (κ α : Type) where
  op : Op κ
  value : α
  /-- The derivative of the output in this slot, once a reverse sweep has summed it. -/
  adjoint : α
  inputs : Window
deriving DecidableEq, Repr

/-- The functions that a tape calls, one table per arity. -/
structure Callbacks (α : Type) where
  unary : Array (UnaryFn α) := #[]
  binary : Array (BinaryFn α) := #[]
  nary : Array (NaryFn α) := #[]

/-- A compiled term. -/
structure Tape (κ α : Type) where
  slots : Array (Slot κ α) := #[]
  edges : Array (Edge α) := #[]
  dimension : Nat := 0
  callbacks : Callbacks α := {}

end Types

instance {κ α : Type} : Inhabited (Tape κ α) := ⟨{}⟩

namespace Window

/-- The window of given offset and length, each cut to 32 bits. -/
def ofNat (offset length : Nat) : Window where
  offset := offset.toUInt32
  length := length.toUInt32

def start (w : Window) : Nat :=
  w.offset.toNat

/-- The first edge after the window. -/
def stop (w : Window) : Nat :=
  w.offset.toNat + w.length.toNat

end Window

/-- The greatest 32-bit word, which no index reaches. -/
def indexLimit : Nat :=
  UInt32.size - 1

namespace Tape

variable {κ α : Type}

section Reading

def size (t : Tape κ α) : Nat :=
  t.slots.size

def isEmpty (t : Tape κ α) : Bool :=
  t.slots.isEmpty

def slot (t : Tape κ α) (i : Nat) : Except (Fault κ) (Slot κ α) :=
  match t.slots[i]? with
  | some s => .ok s
  | none => .error .outOfBounds

/-- The edges of a window. -/
def edgesIn (t : Tape κ α) (w : Window) : Except (Fault κ) (List (Edge α)) :=
  if w.stop ≤ t.edges.size then .ok (t.edges.extract w.start w.stop).toList
  else .error .outOfBounds

/-- The edges of a slot, in operand order. -/
def inputs (t : Tape κ α) (i : Nat) : Except (Fault κ) (List (Edge α)) := do
  let s ← t.slot i
  t.edgesIn s.inputs

/-- The value in a slot. -/
def valueAt (t : Tape κ α) (i : Nat) : Except (Fault κ) α :=
  (t.slot i).map (·.value)

def outputIndex (t : Tape κ α) : Except (Fault κ) Nat :=
  if t.isEmpty then .error .emptyTape else .ok (t.size - 1)

/-- The value of the last slot. -/
def outputValue (t : Tape κ α) : Except (Fault κ) α := do
  t.valueAt (← t.outputIndex)

/-- The number of slots that call a function. -/
def callbackCount (t : Tape κ α) : Nat :=
  t.slots.countP fun s => s.op.isCallback

/-- Whether any function is registered, called or not. -/
def hasCallbacks (t : Tape κ α) : Bool :=
  !(t.callbacks.unary.isEmpty && t.callbacks.binary.isEmpty && t.callbacks.nary.isEmpty)

def unaryFn (t : Tape κ α) (h : Nat) : Except (Fault κ) (UnaryFn α) :=
  match t.callbacks.unary[h]? with
  | some f => .ok f
  | none => .error .outOfBounds

def binaryFn (t : Tape κ α) (h : Nat) : Except (Fault κ) (BinaryFn α) :=
  match t.callbacks.binary[h]? with
  | some f => .ok f
  | none => .error .outOfBounds

def naryFn (t : Tape κ α) (h : Nat) : Except (Fault κ) (NaryFn α) :=
  match t.callbacks.nary[h]? with
  | some f => .ok f
  | none => .error .outOfBounds

end Reading

section Building

variable [Zero α]

/-- Appends a slot and its edges, and gives the slot's index. -/
def pushSlot (t : Tape κ α) (op : Op κ) (value : α) (sources : List Nat) :
    Except (Fault κ) (Nat × Tape κ α) :=
  if t.size < indexLimit then
    .ok (t.size,
      { t with
        slots := t.slots.push
          { op, value, adjoint := 0, inputs := Window.ofNat t.edges.size sources.length }
        edges := t.edges ++ sources.map fun source => ({ source, weight := 0 } : Edge α) })
  else .error .tapeTooLong

/-- Appends a variable.  Variables come before all else.  A refused call leaves the dimension as it
was, also where no index is left; a builder that counts the variable before it asks for an index
would leave the dimension of such a tape one higher. -/
def pushInput (t : Tape κ α) : Except (Fault κ) (Nat × Tape κ α) :=
  if t.size = t.dimension then
    pushSlot { t with dimension := t.dimension + 1 } .input 0 []
  else .error .inputAfterNode

def pushConst (t : Tape κ α) (value : α) : Except (Fault κ) (Nat × Tape κ α) :=
  t.pushSlot .const value []

/-- Whether `op` can be pushed over `n` operands: it computes, and takes that many. -/
def pushable (op : Op κ) (n : Nat) : Bool :=
  !op.isInput && !op.isConst && op.accepts n

/-- Appends an operation over earlier slots. -/
def pushOp (t : Tape κ α) (op : Op κ) (sources : List Nat) :
    Except (Fault κ) (Nat × Tape κ α) :=
  if !pushable op sources.length then .error (.arity op sources.length)
  else if !sources.all (· < t.size) then .error .forwardOperand
  else t.pushSlot op 0 sources

/-- Registers a function of one argument and gives its handle. -/
def registerUnary (t : Tape κ α) (f : UnaryFn α) : Except (Fault κ) (Nat × Tape κ α) :=
  let h := t.callbacks.unary.size
  if h ≤ indexLimit then
    .ok (h, { t with callbacks := { t.callbacks with unary := t.callbacks.unary.push f } })
  else .error .tooManyCallbacks

/-- Registers a function of two arguments and gives its handle. -/
def registerBinary (t : Tape κ α) (f : BinaryFn α) : Except (Fault κ) (Nat × Tape κ α) :=
  let h := t.callbacks.binary.size
  if h ≤ indexLimit then
    .ok (h, { t with callbacks := { t.callbacks with binary := t.callbacks.binary.push f } })
  else .error .tooManyCallbacks

/-- Registers a function of any number of arguments and gives its handle. -/
def registerNary (t : Tape κ α) (f : NaryFn α) : Except (Fault κ) (Nat × Tape κ α) :=
  let h := t.callbacks.nary.size
  if h ≤ indexLimit then
    .ok (h, { t with callbacks := { t.callbacks with nary := t.callbacks.nary.push f } })
  else .error .tooManyCallbacks

end Building

section WellFormed

variable [Exponent κ]

/-- Whether a slot at index `i` may stand there: its exponent is valid, it is a variable
exactly when `i` is below the dimension, its window starts at `offset` and stays in the
edge table, its operation takes as many operands as the window holds, and they all come
before it. -/
def slotWellFormed (t : Tape κ α) (i offset : Nat) (s : Slot κ α) : Bool :=
  s.op.exponentValid &&
    (s.inputs.start == offset && decide (s.inputs.stop ≤ t.edges.size)) &&
    (decide (i < t.dimension) == s.op.isInput) &&
    s.op.accepts (s.inputs.stop - s.inputs.start) &&
    (t.edges.extract s.inputs.start s.inputs.stop).all (·.source < i)

/-- Whether slots from index `i` on are well formed and their windows tile the edge table
from `offset` to its end. -/
def tilesFrom (t : Tape κ α) : List (Slot κ α) → Nat → Nat → Bool
  | [], _, offset => offset == t.edges.size
  | s :: rest, i, offset =>
      t.slotWellFormed i offset s && t.tilesFrom rest (i + 1) s.inputs.stop

/-- Whether a tape has the shape that building one slot after another gives it, with at
least one slot after the variables. -/
def isWellFormed (t : Tape κ α) : Bool :=
  decide (t.dimension < t.size) && t.tilesFrom t.slots.toList 0 0

end WellFormed
end Tape
end ReverseMode
