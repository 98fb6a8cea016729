/-!
# Data trees

Structured data of the kind that is written to files and sent between programs.  Integers
and reals are different: `1` is the integer one, `1.0` the real.

A record lists its fields in order.  Where a name occurs twice the later field counts.
-/

namespace ReverseMode

/-- A tree of data. -/
inductive Data where
  | null
  | bool (b : Bool)
  | int (n : Int)
  | real (x : Float)
  | text (s : String)
  | list (entries : List Data)
  | record (fields : List (String × Data))
deriving Inhabited

namespace Data

/-- The field of a given name. -/
def field? (name : String) : Data → Option Data
  | record fields => (fields.reverse.find? fun f => f.1 == name).map (·.2)
  | _ => none

/-- The entries of a list. -/
def entries? : Data → Option (List Data)
  | list entries => some entries
  | _ => none

/-- The values of a fixed choice of fields.  They may also be given by position, as a list
of exactly that many entries. -/
def fields? (names : List String) : Data → Option (List Data)
  | list entries => if entries.length = names.length then some entries else none
  | d => names.mapM fun name => d.field? name

/-- An integer of 32 bits without sign. -/
def word? : Data → Option Nat
  | int n => if 0 ≤ n ∧ n < UInt32.size then some n.toNat else none
  | _ => none

/-- A finite number, where an integer is read as the nearest real. -/
def number? (d : Data) : Option Float :=
  let x? :=
    match d with
    | int n => some (Float.ofInt n)
    | real x => some x
    | _ => none
  x?.filter Float.isFinite

/-- A number as data.  Data has no infinities and no NaN, so these are written as null. -/
def ofNumber (x : Float) : Data :=
  if x.isFinite then real x else null

end Data
end ReverseMode
