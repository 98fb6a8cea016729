import ReverseMode.Data
import ReverseMode.Tape.Basic

/-!
# Tapes as data

**Format.**  A tape is a record of its `elements`, its `edges` and its `dimension`.  An
element is a record of `op`, `value`, `adjoint` and `inputs`, the last a record of `offset`
and `len`; an edge is a record of `source` and `weight`.  An operation is its name, or a
record of its name with its exponent or handle.

Functions cannot be written, so a tape with registered functions is refused.  Numbers that
are not finite are written as null, which does not read back as a number.

**Results.**  `Tape.encode` and `Tape.decode`.  Decoding first looks at the shape of the
data, then for operations that call functions, then whether the tape is well formed.
Fields that the format does not know are passed over.
-/

namespace ReverseMode

/-- Why a tape could not be written or read. -/
inductive StorageError where
  /-- Functions are registered with the tape. -/
  | callbacksRegistered
  /-- The data has not the shape of a tape. -/
  | shape
  /-- An operation calls a function. -/
  | callbacksReferenced
  | illFormed
deriving DecidableEq, Repr

def StorageError.message : StorageError → String
  | callbacksRegistered =>
      "cannot serialize a Tape containing user callbacks; recompile from the term instead"
  | shape => "not the shape of a tape"
  | callbacksReferenced => "tape references callbacks that cannot be restored"
  | illFormed => "tape is not well formed"

namespace Tape

section Encoding

def encodeWord (n : Nat) : Data :=
  .int n

def encodeOp : Op Float → Data
  | .input => .text "Input"
  | .const => .text "Const"
  | .sum => .text "Sum"
  | .product => .text "Product"
  | .constPower k => .record [("ConstPower", .ofNumber k)]
  | .termPower => .text "TermPower"
  | .exp => .text "Exp"
  | .ln => .text "Log"
  | .unary h => .record [("Unary", encodeWord h)]
  | .binary h => .record [("Binary", encodeWord h)]
  | .nary h => .record [("Nary", encodeWord h)]

def encodeWindow (w : Window) : Data :=
  .record [("offset", encodeWord w.offset.toNat), ("len", encodeWord w.length.toNat)]

def encodeSlot (s : Slot Float Float) : Data :=
  .record
    [("op", encodeOp s.op), ("value", .ofNumber s.value), ("adjoint", .ofNumber s.adjoint),
      ("inputs", encodeWindow s.inputs)]

def encodeEdge (e : Edge Float) : Data :=
  .record [("source", encodeWord e.source), ("weight", .ofNumber e.weight)]

/-- A tape without functions as data. -/
def encode (t : Tape Float Float) : Except StorageError Data :=
  if t.hasCallbacks then .error .callbacksRegistered
  else
    .ok (.record
      [("elements", .list (t.slots.toList.map encodeSlot)),
        ("edges", .list (t.edges.toList.map encodeEdge)),
        ("dimension", encodeWord t.dimension)])

end Encoding

section Decoding

/-- An operation without exponent or handle. -/
def plainOp? (name : String) : Option (Op Float) :=
  match name with
  | "Input" => some .input
  | "Const" => some .const
  | "Sum" => some .sum
  | "Product" => some .product
  | "TermPower" => some .termPower
  | "Exp" => some .exp
  | "Log" => some .ln
  | _ => none

/-- An operation from its name and what stands beside it. -/
def taggedOp? (name : String) (d : Data) : Option (Op Float) :=
  match name, d with
  | "ConstPower", d => d.number?.map .constPower
  | "Unary", d => d.word?.map .unary
  | "Binary", d => d.word?.map .binary
  | "Nary", d => d.word?.map .nary
  | name, .null => plainOp? name
  | _, _ => none

def decodeOp? : Data → Option (Op Float)
  | .text name => plainOp? name
  | .record [(name, d)] => taggedOp? name d
  | _ => none

def decodeWindow? (d : Data) : Option Window := do
  match ← d.fields? ["offset", "len"] with
  | [offset, length] => return Window.ofNat (← offset.word?) (← length.word?)
  | _ => none

def decodeSlot? (d : Data) : Option (Slot Float Float) := do
  match ← d.fields? ["op", "value", "adjoint", "inputs"] with
  | [op, value, adjoint, inputs] =>
      return {
        op := ← decodeOp? op
        value := ← value.number?
        adjoint := ← adjoint.number?
        inputs := ← decodeWindow? inputs }
  | _ => none

def decodeEdge? (d : Data) : Option (Edge Float) := do
  match ← d.fields? ["source", "weight"] with
  | [source, weight] => return { source := ← source.word?, weight := ← weight.number? }
  | _ => none

/-- The tape that data has the shape of, whether it is well formed or not. -/
def decodeShape? (d : Data) : Option (Tape Float Float) := do
  match ← d.fields? ["elements", "edges", "dimension"] with
  | [elements, edges, dimension] =>
      return {
        slots := (← (← elements.entries?).mapM decodeSlot?).toArray
        edges := (← (← edges.entries?).mapM decodeEdge?).toArray
        dimension := ← dimension.word? }
  | _ => none

/-- The tape of data. -/
def decode (d : Data) : Except StorageError (Tape Float Float) :=
  match decodeShape? d with
  | none => .error .shape
  | some t =>
      if t.callbackCount ≠ 0 then .error .callbacksReferenced
      else if t.isWellFormed then .ok t
      else .error .illFormed

end Decoding
end Tape
end ReverseMode
