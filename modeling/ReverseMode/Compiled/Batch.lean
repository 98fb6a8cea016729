import ReverseMode.Compiled.Basic

/-!
# Batches of points

`gradientBatch` runs a compiled term over points one after another on its own storage, and
stops at the first point that is refused.

The parallel batches check all points before they compute anything.  Each point is then
worked out on a copy of the compiled term, which itself stays as it is, and the results
come in the order of the points.
-/

namespace ReverseMode
namespace CompiledTerm

variable {κ α : Type} [Exponent κ] [Scalar κ α]

/-- Values and gradients at points in order. -/
def gradientBatch : List (List α) → CompiledTerm κ α →
    Except (Error κ) (List (α × List α)) × CompiledTerm κ α
  | [], c => (.ok [], c)
  | p :: ps, c =>
      match c.gradient p with
      | (.error e, c) => (.error e, c)
      | (.ok vg, c) =>
          match gradientBatch ps c with
          | (.error e, c) => (.error e, c)
          | (.ok vgs, c) => (.ok (vg :: vgs), c)

/-- Checks the length of every point in order. -/
def checkPoints (c : CompiledTerm κ α) (points : List (List α)) :
    Except (Error κ) Unit :=
  points.forM fun p => (Slice.point.check c.dimension p.length).mapError .argument

/-- Values and gradients at points, each on a copy. -/
def gradientBatchParallel (c : CompiledTerm κ α) (points : List (List α)) :
    Except (Error κ) (List (α × List α)) := do
  c.checkPoints points
  points.mapM fun p => (c.gradient p).1

/-- Values at points, each on a copy. -/
def evaluateBatchParallel (c : CompiledTerm κ α) (points : List (List α)) :
    Except (Error κ) (List α) := do
  c.checkPoints points
  points.mapM fun p => (c.evaluate p).1

end CompiledTerm
end ReverseMode
