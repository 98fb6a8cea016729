import ReverseMode.Term.Graph

/-!
# Stacks of pending work

A depth-first pass over a graph keeps a stack of tasks.  `enter t` asks for `t` and all
below it; `leave t` finishes `t` once its operands are done.

**Results.**  `load` weighs a stack, an `enter` by the size of the fully unfolded term.
Replacing `enter t` by `leave t` below the `enter`s of any of its operands makes a stack
lighter (`load_expand_lt`), and so does taking a task away.  This is what ends the passes,
whatever else they remember.
-/

namespace ReverseMode

/-- A step that a depth-first pass still has to take. -/
inductive Task (τ : Type) where
  | enter (t : τ)
  | leave (t : τ)
deriving DecidableEq, Repr

namespace Graph

variable {κ α : Type} [Exponent κ] (g : Graph κ α)

/-- Twice the number of nodes of a term with all sharing undone. -/
def expansion : g.Term → Nat :=
  g.fold fun _ n => 2 + n.operands.foldr (· + ·) 0

theorem expansion_eq (t : g.Term) :
    g.expansion t = 2 + ((g.operands t).map g.expansion).foldr (· + ·) 0 := by
  rw [expansion, fold_eq, Node.operands_mapOperands_const]
  rfl

/-- The weight of one task. -/
def weight : Task g.Term → Nat
  | .enter t => g.expansion t
  | .leave _ => 1

/-- The weight of a stack of tasks. -/
def load (stack : List (Task g.Term)) : Nat :=
  (stack.map g.weight).foldr (· + ·) 0

theorem load_cons (a : Task g.Term) (stack : List (Task g.Term)) :
    g.load (a :: stack) = g.weight a + g.load stack := by
  simp [load]

theorem load_append (s r : List (Task g.Term)) :
    g.load (s ++ r) = g.load s + g.load r := by
  induction s with
  | nil => simp [load]
  | cons a s ih => rw [List.cons_append, load_cons, load_cons, ih, Nat.add_assoc]

/-- Every task weighs something, so a stack that loses its top gets lighter. -/
theorem load_tail_lt (a : Task g.Term) (stack : List (Task g.Term)) :
    g.load stack < g.load (a :: stack) := by
  rw [load_cons]
  have : 0 < g.weight a := by
    cases a with
    | enter t => rw [weight, expansion_eq]; omega
    | leave t => exact Nat.one_pos
  omega

theorem load_enter_filter_le (p : g.Term → Bool) (ts : List g.Term) :
    g.load ((ts.filter p).map Task.enter) ≤ (ts.map g.expansion).foldr (· + ·) 0 := by
  induction ts with
  | nil => simp [load]
  | cons t ts ih =>
      rw [List.filter_cons]
      split
      · rw [List.map_cons, load_cons, List.map_cons, List.foldr_cons, weight]
        omega
      · rw [List.map_cons, List.foldr_cons]
        omega

/-- Expanding a task makes the stack lighter, whichever operands are entered. -/
theorem load_expand_lt (t : g.Term) (p : g.Term → Bool) (stack : List (Task g.Term)) :
    g.load (((g.operands t).filter p).map Task.enter ++ Task.leave t :: stack) <
      g.load (Task.enter t :: stack) := by
  have h := g.load_enter_filter_le p (g.operands t)
  rw [load_append, load_cons, load_cons, weight, weight, expansion_eq]
  omega

end Graph
end ReverseMode
