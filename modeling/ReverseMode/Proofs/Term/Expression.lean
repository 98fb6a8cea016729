import ReverseMode.Term.Graph

/-!
# Expressions

An expression is a term with all sharing undone and its variables replaced by their positions in
a list.  Terms of different graphs can be compared by the expressions that they unfold to.

**Results.**
* `Node.mapOperands_mapOperands`, `Node.mapOperands_congr`: how layers of results compose.
* `Graph.value_unfold`: the value of a term hangs on the expression that it unfolds to, and not
  on what it shares.
-/

namespace ReverseMode

/-- A tree of nodes over the coordinates of a point. -/
inductive Expr (κ α : Type) where
  | coordinate (k : Nat)
  | layer (n : Node κ α (Expr κ α))

namespace Node

variable {κ α ι β γ : Type}

theorem mapOperands_mapOperands
    (n : Node κ α ι) (f : (i : ι) → i ∈ n.operands → β) (h : β → γ) :
    (n.mapOperands f).mapOperands (fun b _ => h b) = n.mapOperands fun i hi => h (f i hi) := by
  cases n <;> simp [mapOperands, Function.comp_def]

theorem mapOperands_congr
    {n : Node κ α ι} {f f' : (i : ι) → i ∈ n.operands → β}
    (h : ∀ i hi, f i hi = f' i hi) :
    n.mapOperands f = n.mapOperands f' := by
  rw [show f = f' from funext fun i => funext fun hi => h i hi]

/-- The operands of a node are smaller than the node. -/
theorem sizeOf_lt_of_mem_operands
    [SizeOf κ] [SizeOf α] [SizeOf ι]
    {n : Node κ α ι} {i : ι}
    (h : i ∈ n.operands) :
    sizeOf i < sizeOf n := by
  cases n with
  | sum ts | nary f ts =>
      have := List.sizeOf_lt_of_mem (show i ∈ ts from h)
      simp only [sum.sizeOf_spec, nary.sizeOf_spec]
      omega
  | const | zero | var => cases h
  | product a b | termPower a b | binary f a b =>
      simp only [operands, List.mem_cons, List.not_mem_nil, or_false] at h
      simp only [product.sizeOf_spec, termPower.sizeOf_spec, binary.sizeOf_spec]
      rcases h with rfl | rfl <;> omega
  | constPower a k | exp a | ln a | unary f a =>
      simp only [operands, List.mem_cons, List.not_mem_nil, or_false] at h
      simp only [constPower.sizeOf_spec, exp.sizeOf_spec, ln.sizeOf_spec, unary.sizeOf_spec]
      rw [h]
      omega

variable [Exponent κ] [Scalar κ α]

/-- Only variables look at what a variable is worth. -/
theorem value_of_not_isVariable
    {n : Node κ α α}
    (h : n.isVariable = false)
    (x y : α) :
    n.value x = n.value y := by
  cases n with
  | var name => cases h
  | _ => rfl

theorem value_of_isVariable
    {n : Node κ α α}
    (h : n.isVariable = true)
    (x : α) :
    n.value x = x := by
  cases n with
  | var name => rfl
  | _ => cases h

end Node

variable {κ α : Type} [Exponent κ] [Scalar κ α]

/-- The value of an expression at a point: coordinates are read from the point, and any other
node combines the values of its operands. -/
def Expr.value (point : List α) : Expr κ α → α
  | coordinate k => point[k]?.getD 0
  | layer n => (n.mapOperands fun e _ => e.value point).value 0
decreasing_by
  have := Node.sizeOf_lt_of_mem_operands ‹_›
  simp only [layer.sizeOf_spec]
  omega

namespace Graph

variable (g : Graph κ α)

/-- The position of a term in a list of variables. -/
def position (vs : List g.Variable) (t : g.Term) : Nat :=
  (vs.map fun v => v.1).idxOf t

/-- The values of variables at a point, read by their positions in a list. -/
def assign (vs : List g.Variable) (point : List α) (t : g.Term) : α :=
  point[g.position vs t]?.getD 0

/-- The expression of a term over a list of variables. -/
def unfold (vs : List g.Variable) : g.Term → Expr κ α :=
  g.fold fun t n =>
    if g.isVariable t then .coordinate (g.position vs t) else .layer n

/-- A term has the value of the expression that it unfolds to. -/
theorem value_unfold (vs : List g.Variable) (point : List α) (t : g.Term) :
    (g.unfold vs t).value point = g.value (g.assign vs point) t := by
  rw [unfold, fold_eq, value, fold_eq]
  have hvar : ((g.node t).mapOperands fun u _ =>
      g.fold (fun t n => n.value (g.assign vs point t)) u).isVariable = g.isVariable t :=
    Node.isVariable_mapOperands _ _
  split
  · rename_i ht
    rw [Expr.value, Node.value_of_isVariable (hvar.trans ht)]
    rfl
  · rename_i ht
    have ht : g.isVariable t = false := by simpa using ht
    rw [Expr.value, Node.mapOperands_mapOperands,
      Node.value_of_not_isVariable (hvar.trans ht) (g.assign vs point t) 0]
    congr 1
    apply Node.mapOperands_congr
    intro u hu
    have hlt := g.lt_of_mem_operands hu
    exact value_unfold vs point u
termination_by t.val

end Graph
end ReverseMode
