import ReverseMode.Program.Basic
import ReverseMode.Tape.Lowering
import ReverseMode.Tape.Sweep

/-!
# Compiled terms

A compiled term is a tape with a list of variables and an engine to run it.

* The interpreted engine sweeps the tape itself, so the tape holds the values, adjoints
  and weights of the latest call.
* The generated engine runs a program made from the tape, and never touches the tape.

Every call checks the lengths of what it is given before it computes, the point before the
gradient.  A call that is refused leaves the compiled term as it was.
-/

namespace ReverseMode

/-- How a compiled term is run. -/
inductive Engine where
  | interpreted
  | generated
deriving DecidableEq, Repr

/-- The name of an engine in reports. -/
def Engine.name : Engine → String
  | interpreted => "Interpreted"
  | generated => "Jit"

/-- Settings of a compilation. -/
structure Options where
  engine : Engine := .interpreted
  /-- Whether the generated engine may call functions; the interpreted one always may. -/
  allowCallbacks : Bool := true
deriving DecidableEq, Repr

/-- An engine with the storage it runs on. -/
inductive Executor (κ α : Type) where
  | interpreted
  | generated (program : Program κ α)

def Executor.engine {κ α : Type} : Executor κ α → Engine
  | interpreted => .interpreted
  | generated _ => .generated

/-- A term compiled against an ordered list of variables. -/
structure CompiledTerm (κ α : Type) where
  tape : Tape κ α
  /-- The variables by identity, in the order of a point's coordinates. -/
  vars : List Nat
  executor : Executor κ α

namespace CompiledTerm

variable {κ α : Type}

def dimension (c : CompiledTerm κ α) : Nat :=
  c.tape.dimension

def engine (c : CompiledTerm κ α) : Engine :=
  c.executor.engine

/-- The tape of a compiled term; the program of the generated engine is dropped. -/
def intoTape (c : CompiledTerm κ α) : Tape κ α :=
  c.tape

variable [Exponent κ] [Scalar κ α]

section Making

/-- Gives a tape its engine. -/
def assemble (tape : Tape κ α) (vs : List Nat) (options : Options) :
    Except (Error κ) (CompiledTerm κ α) :=
  match options.engine with
  | .interpreted => .ok { tape, vars := vs, executor := .interpreted }
  | .generated => do
      let program ← Program.ofTape tape options.allowCallbacks
      return { tape, vars := vs, executor := .generated program }

/-- Compiles a term so that the `k`-th variable is the `k`-th coordinate of a point. -/
def compile (g : Graph κ α) (root : g.Term) (vs : List g.Variable) (options : Options) :
    Except (Error κ) (CompiledTerm κ α) := do
  let lowered ← Tape.ofTerm g root vs
  assemble lowered.tape (vs.map fun v => v.1.val) options

/-- Makes a compiled term from a tape at hand. -/
def ofTape (tape : Tape κ α) (vs : List Nat) (options : Options) :
    Except (Error κ) (CompiledTerm κ α) := do
  (Slice.variableList.check tape.dimension vs.length).mapError .argument
  if tape.isEmpty then throw (.argument (.tooFewTerms .tape 1 0))
  assemble tape vs options

end Making

section Calls

/-- The value at a point. -/
def evaluate (point : List α) (c : CompiledTerm κ α) :
    Except (Error κ) α × CompiledTerm κ α :=
  match Slice.point.check c.dimension point.length with
  | .error e => (.error (.argument e), c)
  | .ok _ =>
      match c with
      | ⟨tape, vs, .interpreted⟩ =>
          let (r, tape) := tape.evaluate point
          (r.mapError .fault, ⟨tape, vs, .interpreted⟩)
      | ⟨tape, vs, .generated program⟩ =>
          let (r, program) := program.evaluate point
          (r.mapError .fault, ⟨tape, vs, .generated program⟩)

/-- The value and the gradient at a point, where the caller has room for `room`
components of the gradient. -/
def differentiate (point : List α) (room : Nat) (c : CompiledTerm κ α) :
    Except (Error κ) (α × List α) × CompiledTerm κ α :=
  match Slice.point.check c.dimension point.length with
  | .error e => (.error (.argument e), c)
  | .ok _ =>
      match Slice.gradient.check c.dimension room with
      | .error e => (.error (.argument e), c)
      | .ok _ =>
          match c with
          | ⟨tape, vs, .interpreted⟩ =>
              let (r, tape) := tape.differentiate point room
              (r.mapError .fault, ⟨tape, vs, .interpreted⟩)
          | ⟨tape, vs, .generated program⟩ =>
              let (r, program) := program.differentiate point room
              (r.mapError .fault, ⟨tape, vs, .generated program⟩)

/-- The value and the gradient at a point, with room made for the gradient. -/
def gradient (point : List α) (c : CompiledTerm κ α) :
    Except (Error κ) (α × List α) × CompiledTerm κ α :=
  c.differentiate point c.dimension

end Calls
end CompiledTerm
end ReverseMode
