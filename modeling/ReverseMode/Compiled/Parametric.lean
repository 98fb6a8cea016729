import ReverseMode.Compiled.Basic

/-!
# Compiled terms with parameters

Parameters are variables that are not differentiated with respect to.  They come after the
free variables on the tape and are given with every call; gradients cover the free
variables alone.

A call checks the gradient, then the point, then the parameters, before it computes.  It joins
point and parameters in storage of its own, where the engine finds them, and the engine leaves the
whole gradient in storage beside it, of which the caller gets the leading components.  Both are
used again by the next call.
-/

namespace ReverseMode

/-- A term compiled over its free variables followed by its parameters. -/
structure ParametricTerm (κ α : Type) where
  inner : CompiledTerm κ α
  /-- The number of free variables. -/
  free : Nat
  /-- The point followed by the parameters, as the latest call has joined them. -/
  joined : List α
  /-- The gradient in all variables, as the latest call has left it. -/
  fullGradient : List α

namespace ParametricTerm

variable {κ α : Type}

def dimension (p : ParametricTerm κ α) : Nat :=
  p.free

def parameterCount (p : ParametricTerm κ α) : Nat :=
  p.inner.dimension - p.free

def vars (p : ParametricTerm κ α) : List Nat :=
  p.inner.vars.take p.free

def params (p : ParametricTerm κ α) : List Nat :=
  p.inner.vars.drop p.free

variable [Exponent κ] [Scalar κ α]

/-- Compiles a term over free variables and parameters.  A variable that is listed as both
counts as repeated. -/
def compile (g : Graph κ α) (root : g.Term) (vs ps : List g.Variable)
    (options : Options) : Except (Error κ) (ParametricTerm κ α) := do
  let inner ← CompiledTerm.compile g root (vs ++ ps) options
  let zeros := List.replicate (vs ++ ps).length 0
  return { inner, free := vs.length, joined := zeros, fullGradient := zeros }

/-- Overwrites a stretch of storage, which has to be as long as what is written there. -/
def overwrite (storage values : List α) : Except (Error κ) (List α) :=
  if storage.length = values.length then .ok values
  else .error (.fault (.copyLength values.length storage.length))

/-- Joins the point and the parameters in the storage for them, if their lengths are right. -/
def join (point params : List α) (p : ParametricTerm κ α) :
    Except (Error κ) (ParametricTerm κ α) := do
  (Slice.point.check p.free point.length).mapError .argument
  (Slice.parameters.check p.parameterCount params.length).mapError .argument
  let head ← overwrite (p.joined.take p.free) point
  let tail ← overwrite (p.joined.drop p.free) params
  return { p with joined := head ++ tail }

/-- The value at a point for given parameters. -/
def evaluate (point params : List α) (p : ParametricTerm κ α) :
    Except (Error κ) α × ParametricTerm κ α :=
  match p.join point params with
  | .error e => (.error e, p)
  | .ok ⟨inner, free, joined, fullGradient⟩ =>
      let (r, inner) := inner.evaluate joined
      (r, ⟨inner, free, joined, fullGradient⟩)

/-- The first `free` components of the stored gradient. -/
def freeGradient (free : Nat) (fullGradient : List α) : Except (Error κ) (List α) :=
  if free ≤ fullGradient.length then .ok (fullGradient.take free)
  else .error (.fault .outOfBounds)

/-- The value at a point for given parameters and the gradient in the free variables,
where the caller has room for `room` components. -/
def differentiate (point params : List α) (room : Nat) (p : ParametricTerm κ α) :
    Except (Error κ) (α × List α) × ParametricTerm κ α :=
  match Slice.gradient.check p.free room with
  | .error e => (.error (.argument e), p)
  | .ok _ =>
      match p.join point params with
      | .error e => (.error e, p)
      | .ok ⟨inner, free, joined, fullGradient⟩ =>
          match inner.differentiate joined fullGradient.length with
          | (.error e, inner) => (.error e, ⟨inner, free, joined, fullGradient⟩)
          | (.ok (value, fullGradient), inner) =>
              let r := (freeGradient free fullGradient).map fun gradient => (value, gradient)
              (r, ⟨inner, free, joined, fullGradient⟩)

/-- The value and the gradient, with room made for the gradient. -/
def gradient (point params : List α) (p : ParametricTerm κ α) :
    Except (Error κ) (α × List α) × ParametricTerm κ α :=
  p.differentiate point params p.free

end ParametricTerm
end ReverseMode
