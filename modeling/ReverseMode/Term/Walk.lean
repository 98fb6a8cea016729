import ReverseMode.Term.Task

/-!
# Walks over a term

**Input.**  A term of a graph.

**Algorithm.**  A stack of tasks and a mark per term.  Entering an unmarked term marks it,
puts its `leave` on the stack and on top of that its operands without a mark, the first
operand uppermost.  Leaving a term visits it.  The stack is explicit, so the depth of a
term does not matter.

**Results.**  `Graph.walk` lists the distinct terms below a term, operands before the terms
that use them.  The variables of a term and the number of its nodes are read off the list.
-/

namespace ReverseMode

/-- A walk under way. -/
structure WalkState {κ α : Type} [Exponent κ] (g : Graph κ α) where
  seen : g.Table Bool
  visited : Array g.Term
  stack : List (Task g.Term)

namespace Graph

variable {κ α : Type} [Exponent κ] (g : Graph κ α)

/-- Takes the uppermost task. -/
def walkStep : WalkState g → WalkState g
  | ⟨seen, visited, []⟩ => ⟨seen, visited, []⟩
  | ⟨seen, visited, .leave t :: rest⟩ => ⟨seen, visited.push t, rest⟩
  | ⟨seen, visited, .enter t :: rest⟩ =>
      if seen.get t then ⟨seen, visited, rest⟩
      else
        let seen := g.enterAt seen t true
        let fresh := (g.operands t).filter fun u => !seen.get u
        ⟨seen, visited, fresh.map Task.enter ++ .leave t :: rest⟩

theorem load_walkStep_lt (s : WalkState g) (h : s.stack ≠ []) :
    g.load (g.walkStep s).stack < g.load s.stack := by
  rcases s with ⟨seen, visited, _ | ⟨_ | _, rest⟩⟩
  · exact absurd rfl h
  · rw [walkStep]
    split
    · exact g.load_tail_lt _ _
    · exact g.load_expand_lt _ _ _
  · exact g.load_tail_lt _ _

/-- Takes tasks until none is left. -/
def walkFrom (s : WalkState g) : WalkState g :=
  if _h : s.stack = [] then s else walkFrom (g.walkStep s)
termination_by g.load s.stack
decreasing_by exact g.load_walkStep_lt s ‹_›

/-- The walk that has only its root to enter. -/
def walkStart (root : g.Term) : WalkState g where
  seen := g.table false
  visited := #[]
  stack := [.enter root]

/-- The distinct terms below `root` and `root` itself, in the order of the visits. -/
def walk (root : g.Term) : List g.Term :=
  (g.walkFrom (g.walkStart root)).visited.toList

/-- The number of distinct nodes of a term. -/
def nodeCount (root : g.Term) : Nat :=
  (g.walk root).length

section Variables

/-- The variables among the visited terms, added to those collected before: each is kept
where it is met first. -/
def collectFrom (collected : List g.Variable) (visits : List g.Term) : List g.Variable :=
  visits.foldl
    (fun found t =>
      match g.asVariable? t with
      | some v => if v ∈ found then found else found ++ [v]
      | none => found)
    collected

/-- The variables of a term added to those collected from other terms. -/
def collect (collected : List g.Variable) (root : g.Term) : List g.Variable :=
  g.collectFrom collected (g.walk root)

/-- The distinct variables of a term in the order in which a walk meets them. -/
def vars (root : g.Term) : List g.Variable :=
  g.collect [] root

end Variables
end Graph
end ReverseMode
