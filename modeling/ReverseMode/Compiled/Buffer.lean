import ReverseMode.Compiled.Parametric

/-!
# Gradients in a caller's buffer

A caller who asks for a gradient hands over a list that the gradient is written to.

* The interpreted engine overwrites the buffer with adjoints place by place, as far as the buffer
  and the slots go.
* The generated engine copies the adjoints of the variables to the buffer, which has to have a place
  for each of them.
* A parametric term has its engine write to storage of its own, and copies the components of the
  free variables from there.

An engine checks the buffer before the point, a compiled term the point before the buffer.  Every
function gives its result, the buffer that it leaves and the state that it leaves.
-/

namespace ReverseMode

/-- A list whose leading entries are overwritten, as far as there are values for them. -/
def overwriteLeading {α : Type} (buffer values : List α) : List α :=
  values.take buffer.length ++ buffer.drop values.length

variable {κ α : Type} [Exponent κ] [Scalar κ α]

/-- The value of the term at a point, and the gradient in a buffer. -/
def Tape.differentiateInto (point buffer : List α) (t : Tape κ α) :
    Except (Fault κ) α × List α × Tape κ α :=
  if buffer.length = t.dimension then
    match t.forwardWithWeights point with
    | (.error e, t) => (.error e, buffer, t)
    | (.ok _, t) =>
        match t.reverse with
        | (.error e, t) => (.error e, buffer, t)
        | (.ok _, t) =>
            (t.outputValue, overwriteLeading buffer (t.slots.toList.map (·.adjoint)), t)
  else (.error .gradientLength, buffer, t)

/-- The value of the term at a point, and the gradient in a buffer. -/
def Program.differentiateInto (point buffer : List α) (p : Program κ α) :
    Except (Fault κ) α × List α × Program κ α :=
  if buffer.length = p.dimension then
    match p.runValues point with
    | (.error e, p) => (.error e, buffer, p)
    | (.ok _, p) =>
        match p.runDerivatives with
        | (.error e, p) => (.error e, buffer, p)
        | (.ok _, p) =>
            if p.dimension ≤ p.registers.diffs.size then
              if p.gradient.length = buffer.length then (.ok p.outputValue, p.gradient, p)
              else (.error (.copyLength p.gradient.length buffer.length), buffer, p)
            else (.error .outOfBounds, buffer, p)
  else (.error .gradientLength, buffer, p)

/-- The value at a point, and the gradient in a buffer. -/
def CompiledTerm.differentiateInto (point buffer : List α) (c : CompiledTerm κ α) :
    Except (Error κ) α × List α × CompiledTerm κ α :=
  match Slice.point.check c.dimension point.length with
  | .error e => (.error (.argument e), buffer, c)
  | .ok _ =>
      match Slice.gradient.check c.dimension buffer.length with
      | .error e => (.error (.argument e), buffer, c)
      | .ok _ =>
          match c with
          | ⟨tape, vs, .interpreted⟩ =>
              let (r, buffer, tape) := tape.differentiateInto point buffer
              (r.mapError .fault, buffer, ⟨tape, vs, .interpreted⟩)
          | ⟨tape, vs, .generated program⟩ =>
              let (r, buffer, program) := program.differentiateInto point buffer
              (r.mapError .fault, buffer, ⟨tape, vs, .generated program⟩)

/-- The value at a point for given parameters, and the gradient in the free variables in a
buffer. -/
def ParametricTerm.differentiateInto (point params buffer : List α) (p : ParametricTerm κ α) :
    Except (Error κ) α × List α × ParametricTerm κ α :=
  match p.differentiate point params buffer.length with
  | (.error e, p) => (.error e, buffer, p)
  | (.ok (value, gradient), p) => (.ok value, gradient, p)

end ReverseMode
