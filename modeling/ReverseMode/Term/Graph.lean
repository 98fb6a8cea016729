import ReverseMode.Term.Node

/-!
# Graphs of terms

A graph is an append-only table of nodes.  A *term* of it is a position in the table, and
two terms are the same only if they are the same position: building a node twice gives two
terms, using a term twice gives one shared operand.

**Invariant.**  Every node refers to earlier terms only and is one that `Node.refusal?`
lets pass.  So no term can reach itself, and every recursion over a graph ends.

**Results.**
* `Graph.fold` is the recursion principle: the result of a term from the results of its
  operands.  `Graph.fold_eq` is its one equation; values, texts and sizes are instances.
* `Graph.add` is the one way to grow a graph.  It changes no term that is already there.
* `Graph.Table` is what a pass over a graph remembers of its terms.
-/

namespace ReverseMode

/-- An append-only table of nodes, whose operands are earlier positions. -/
structure Graph (κ α : Type) [Exponent κ] where
  nodes : Array (Node κ α Nat)
  node_ok : ∀ (i : Nat) (h : i < nodes.size),
    nodes[i].refusal? = none ∧ ∀ j ∈ nodes[i].operands, j < i

namespace Graph

variable {κ α : Type} [Exponent κ]

def empty : Graph κ α where
  nodes := #[]
  node_ok := by simp

instance : Inhabited (Graph κ α) := ⟨empty⟩

/-- The number of nodes ever added. -/
abbrev size (g : Graph κ α) : Nat :=
  g.nodes.size

/-- The terms of a graph. -/
abbrev Term (g : Graph κ α) : Type :=
  Fin g.size

/-- The term at a position, if the table reaches that far. -/
def term? (g : Graph κ α) (id : Nat) : Option g.Term :=
  if h : id < g.size then some ⟨id, h⟩ else none

section Access

variable (g : Graph κ α)

/-- The node of a term, with terms for operands. -/
def node (t : g.Term) : Node κ α g.Term :=
  g.nodes[t].mapOperands fun j hj =>
    ⟨j, Nat.lt_trans ((g.node_ok t t.isLt).2 j hj) t.isLt⟩

/-- The operands of a term in order, one entry per place. -/
def operands (t : g.Term) : List g.Term :=
  (g.node t).operands

/-- Operands are earlier terms. -/
theorem lt_of_mem_operands {t u : g.Term} (h : u ∈ g.operands t) : u.val < t.val := by
  rw [operands, node, Node.operands_mapOperands] at h
  obtain ⟨j, _, rfl⟩ := List.mem_map.1 h
  exact (g.node_ok t t.isLt).2 j.1 j.2

def isVariable (t : g.Term) : Bool :=
  (g.node t).isVariable

end Access

/-- The variables of a graph: the terms that are variable nodes. -/
abbrev Variable (g : Graph κ α) : Type :=
  { t : g.Term // g.isVariable t = true }

instance (g : Graph κ α) : LawfulBEq g.Variable := inferInstance

/-- The term as a variable, if it is one. -/
def asVariable? (g : Graph κ α) (t : g.Term) : Option g.Variable :=
  if h : g.isVariable t = true then some ⟨t, h⟩ else none

section Tables

/-- Tables with one entry for each term of a graph. -/
abbrev Table (g : Graph κ α) (β : Type) : Type :=
  Vector β g.size

variable {β : Type}

/-- The table whose entries are all `b`. -/
def table (g : Graph κ α) (b : β) : g.Table β :=
  Vector.replicate g.size b

/-- The table with another entry for one term. -/
def enterAt (g : Graph κ α) (entries : g.Table β) (t : g.Term) (b : β) : g.Table β :=
  entries.set t b

@[simp] theorem get_table (g : Graph κ α) (b : β) (t : g.Term) : (g.table b).get t = b := by
  exact Vector.getElem_replicate t.isLt

/-- Entering at a term changes the entry of that term alone. -/
theorem get_enterAt (g : Graph κ α) (entries : g.Table β) (t u : g.Term) (b : β) :
    (g.enterAt entries t b).get u = if t = u then b else entries.get u := by
  simp only [Fin.ext_iff]
  exact Vector.getElem_set t.isLt u.isLt

end Tables

section Fold

variable {β : Type}

/-- The result of a term, computed from the term and its node with the results of the
operands in place of the operands. -/
def fold (g : Graph κ α) (layer : g.Term → Node κ α β → β) (t : g.Term) : β :=
  layer t ((g.node t).mapOperands fun u _ => g.fold layer u)
termination_by t.val
decreasing_by exact g.lt_of_mem_operands ‹_›

theorem fold_eq (g : Graph κ α) (layer : g.Term → Node κ α β → β) (t : g.Term) :
    g.fold layer t = layer t ((g.node t).mapOperands fun u _ => g.fold layer u) := by
  rw [fold]

end Fold

section Growth

/-- The graph with one more node. -/
def push (g : Graph κ α) (n : Node κ α Nat)
    (ok : n.refusal? = none ∧ ∀ j ∈ n.operands, j < g.nodes.size) : Graph κ α where
  nodes := g.nodes.push n
  node_ok := by
    intro i h
    rw [Array.getElem_push]
    split
    · exact g.node_ok i _
    · rw [Array.size_push] at h
      obtain rfl : i = g.nodes.size := by omega
      exact ok

/-- Adds a node and gives the new term, unless the node is refused.  A refused node leaves
the graph as it was. -/
def add (n : Node κ α Nat) (g : Graph κ α) :
    Except (ArgumentError κ) Nat × Graph κ α :=
  match h : n.refusal? with
  | some e => (.error e, g)
  | none =>
      if hj : ∀ j ∈ n.operands, j < g.nodes.size then
        (.ok g.nodes.size, g.push n ⟨h, hj⟩)
      else
        let stranger := n.operands.find? fun j => g.nodes.size ≤ j
        (.error (.unknownTerm (stranger.getD 0)), g)

end Growth

section Instances

/-- The value of a term, where `x` gives the values of variables. -/
def value [Scalar κ α] (g : Graph κ α) (x : g.Term → α) : g.Term → α :=
  g.fold fun t n => n.value (x t)

/-- The text of a term, where `anonymous` names the variables that have no name. -/
def text [Text.Numeral κ] [Text.Numeral α] (g : Graph κ α) (anonymous : Nat → String) :
    g.Term → String :=
  g.fold fun t n => n.text (anonymous t)

end Instances
end Graph
end ReverseMode
