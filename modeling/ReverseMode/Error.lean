import ReverseMode.Operation

/-!
# Errors and faults

Two kinds of failure are kept apart.

* An *error* is a cause that a caller can meet with well-typed data: a list of variables
  that does not fit the term, a slice of the wrong length, an exponent that no power may
  have.  `Error` collects them.
* A *fault* is a broken assertion of the tape machinery itself, such as an operand that
  does not precede its user.  No tape that the library builds from a term faults; tapes
  assembled slot by slot can.

Each type has one function from causes to wording.
-/

namespace ReverseMode

section Causes

/-- Something that needs a least number of terms. -/
inductive Collection where
  | sum
  | naryFunction
  | tape
deriving DecidableEq, Repr

/-- A list whose length has to fit a compiled term. -/
inductive Slice where
  | point
  | gradient
  | parameters
  | variableList
deriving DecidableEq, Repr

/-- A breach of what a constructor or a call asks of its arguments. -/
inductive ArgumentError (κ : Type) where
  | tooFewTerms (what : Collection) (least got : Nat)
  | invalidExponent (k : κ)
  | lengthMismatch (what : Slice) (expected got : Nat)
  /-- An operand that is no term of the graph it is used in. -/
  | unknownTerm (id : Nat)
deriving DecidableEq, Repr

/-- A variable that cannot be given a slot.  Variables are told apart by their identity in
the graph, never by name. -/
inductive BindingError where
  /-- The term reads a variable that the list of variables misses. -/
  | unbound (v : Nat)
  /-- The list of variables repeats a variable. -/
  | duplicate (v : Nat) (first second : Nat)
deriving DecidableEq, Repr

/-- A broken assertion of the tape machinery. -/
inductive Fault (κ : Type) where
  | inputAfterNode
  | arity (op : Op κ) (operands : Nat)
  | forwardOperand
  | tapeTooLong
  | tooManyCallbacks
  | emptyTape
  | pointLength
  | gradientLength
  | leafValue
  | leafOperand
  | engineOperation (op : Op κ)
  | unslottedOperand
  | outOfBounds
  | copyLength (source target : Nat)
deriving DecidableEq, Repr

/-- Why a term could not be built, compiled or called. -/
inductive Error (κ : Type) where
  | argument (e : ArgumentError κ)
  | binding (e : BindingError)
  /-- The engine was told to refuse functions, and the tape calls some. -/
  | callbacksNotSupported (count : Nat)
  | fault (f : Fault κ)
deriving DecidableEq, Repr

end Causes

section Wording

variable {κ : Type} [Text.Numeral κ]

def Collection.name : Collection → String
  | sum => "sum"
  | naryFunction => "n-ary function"
  | tape => "tape"

def Slice.name : Slice → String
  | point => "point"
  | gradient => "gradient"
  | parameters => "parameters"
  | variableList => "variable list"

def ArgumentError.message : ArgumentError κ → String
  | tooFewTerms what least got =>
      what.name ++ " requires at least " ++ toString least ++ " terms, got " ++ toString got
  | invalidExponent k =>
      "invalid constant exponent " ++ Text.Numeral.plain k ++ ": must be finite and non-zero"
  | lengthMismatch what expected got =>
      what.name ++ " has length " ++ toString got ++ ", expected " ++ toString expected
  | unknownTerm id => "term " ++ toString id ++ " is not in the graph"

/-- The wording of a binding error, given the names of variables. -/
def BindingError.message (name : Nat → String) : BindingError → String
  | unbound v =>
      "variable `" ++ name v ++ "` is used by the term but not declared in the variable list"
  | duplicate v first second =>
      "variable `" ++ name v ++ "` is declared twice (positions " ++ toString first ++ " and " ++
        toString second ++ ")"

def Fault.message : Fault κ → String
  | inputAfterNode => "inputs must be pushed before any other node"
  | arity op n => op.listing ++ " cannot take " ++ toString n ++ " operands"
  | forwardOperand => "operands must precede the node that uses them"
  | tapeTooLong => "tape too long"
  | tooManyCallbacks => "too many callbacks"
  | emptyTape => "empty tape has no output"
  | pointLength => "wrong number of inputs"
  | gradientLength => "wrong gradient length"
  | leafValue => "Input/Const values are set when the tape is built or loaded"
  | leafOperand => "leaves have no operands"
  | engineOperation op => op.listing ++ " is dispatched by the engine"
  | unslottedOperand => "operands are compiled before their users"
  | outOfBounds => "index out of bounds"
  | copyLength source target =>
      "source slice length (" ++ toString source ++
        ") does not match destination slice length (" ++ toString target ++ ")"

/-- The wording of an error, given the names of variables. -/
def Error.message (name : Nat → String) : Error κ → String
  | argument e => e.message
  | binding e => e.message name
  | callbacksNotSupported count =>
      "engine does not accept opaque callbacks, tape contains " ++ toString count
  | fault f => f.message

end Wording

/-- Checks a length against the one expected. -/
def Slice.check {κ : Type} (what : Slice) (expected got : Nat) :
    Except (ArgumentError κ) Unit :=
  if expected = got then .ok () else .error (.lengthMismatch what expected got)

end ReverseMode
