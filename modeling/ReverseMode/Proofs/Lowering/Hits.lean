import ReverseMode.Log
import ReverseMode.Proofs.Lowering.Shape

/-!
# How often lowering a term meets a slot

**Input.**  Any term with any list of variables over which it has a tape.

**Argument.**  An operand of an expanded term is a hit at once if it has a slot.  Otherwise it is
put on the stack, and it is either a hit when it is taken from there or is expanded itself.  So
between two tasks, the hits, the slots and the tasks balance the edges: those on the tape, and
those still due for the terms to be left (`Balanced`).  For the balance no term may be left
twice: above the `leave` of a term there are tasks for earlier terms only, so that the term has
no slot as long as its `leave` is on the stack.

**Results.**
* `Balanced.step`: a step keeps the balance.
* `hits_add_card`: all operands are hits but the first uses of computed terms.
* `hits_balance`: the numbers that lowering reports balance.
-/

namespace ReverseMode
namespace Graph

variable {κ α : Type} [Exponent κ] {g : Graph κ α}

section Emission

variable [Scalar κ α] {slots : g.Table (Option Nat)} {tape : Tape κ α} {r : Nat × Tape κ α}

/-- Emitting a term appends a slot, and an edge for each operand. -/
theorem sizes_of_emit
    {t : g.Term}
    (h : g.emit t slots tape = .ok r) :
    r.2.size = tape.size + 1 ∧ r.2.edges.size = tape.edges.size + (g.operands t).length := by
  obtain ⟨op, v, sources, -, hsources, rfl⟩ := emit_eq_ok h
  rw [← length_of_mapM_eq_ok hsources]
  exact ⟨Tape.size_withSlot _ _ _ _, Tape.size_edges_withSlot _ _ _ _⟩

end Emission

section Due

/-- The number of edges of the terms that are to be left. -/
def due (g : Graph κ α) : List (Task g.Term) → Nat
  | [] => 0
  | .enter _ :: rest => g.due rest
  | .leave t :: rest => (g.operands t).length + g.due rest

@[simp] theorem due_nil : g.due [] = 0 := by
  rfl

@[simp] theorem due_enter (t : g.Term) (rest : List (Task g.Term)) :
    g.due (.enter t :: rest) = g.due rest := by
  rfl

@[simp] theorem due_leave (t : g.Term) (rest : List (Task g.Term)) :
    g.due (.leave t :: rest) = (g.operands t).length + g.due rest := by
  rfl

@[simp] theorem due_enter_all (ts : List g.Term) (rest : List (Task g.Term)) :
    g.due (ts.map Task.enter ++ rest) = g.due rest := by
  induction ts with
  | nil => rfl
  | cons t ts ih => simp [ih]

end Due

section Balance

/-- The state between two tasks over `dimension` variables. -/
structure Balanced (dimension : Nat) (s : LoweringState g) : Prop where
  above : s.stack.Pairwise fun a b => ∀ p, b = .leave p → a.term < p
  unslotted : ∀ p, .leave p ∈ s.stack → s.slots.get p = none
  balance : s.hits + s.tape.size + s.stack.length =
    s.tape.edges.size + g.due s.stack + dimension + 1

variable {dimension : Nat} {tape tape' : Tape κ α} {slots : g.Table (Option Nat)} {hits slot : Nat}
  {t : g.Term} {rest : List (Task g.Term)}

/-- A task that is a hit is off the stack. -/
theorem Balanced.hit
    (h : Balanced dimension ⟨tape, slots, hits, .enter t :: rest⟩) :
    Balanced dimension ⟨tape, slots, hits + 1, rest⟩ := by
  constructor
  · exact (List.pairwise_cons.1 h.above).2
  · exact fun p hp => h.unslotted p (List.mem_cons_of_mem _ hp)
  · have hbalance := h.balance
    simp only [List.length_cons, due_enter] at hbalance ⊢
    omega

/-- Of the operands of an expanded term, each is a hit or a new task, and each is due an edge. -/
theorem Balanced.expand
    (h : Balanced dimension ⟨tape, slots, hits, .enter t :: rest⟩)
    (ht : slots.get t = none) :
    Balanced dimension ⟨tape, slots,
      hits + (g.operands t).countP fun u => (slots.get u).isSome,
      ((g.operands t).filter fun u => (slots.get u).isNone).map Task.enter ++ .leave t :: rest⟩ := by
  constructor
  · apply pairwise_expand h.above
    exact fun u hu => g.lt_of_mem_operands (List.mem_filter.1 hu).1
  · intro p hp
    rcases Task.leave_mem_expand.1 hp with rfl | hp
    · exact ht
    · exact h.unslotted p (List.mem_cons_of_mem _ hp)
  · have hbalance := h.balance
    have hoperands := List.length_eq_countP_add_countP
      (fun u => (slots.get u).isSome) (l := g.operands t)
    have hfresh : ((g.operands t).filter fun u => (slots.get u).isNone).length =
        (g.operands t).countP fun u => ¬ (slots.get u).isSome = true := by
      rw [← List.countP_eq_length_filter]
      exact List.countP_congr fun u _ => by simp
    simp only [List.length_cons, List.length_append, List.length_map, due_enter, due_enter_all,
      due_leave] at hbalance ⊢
    omega

variable [Scalar κ α]

/-- A term that is left turns what was due for it into a slot and edges. -/
theorem Balanced.leave
    (h : Balanced dimension ⟨tape, slots, hits, .leave t :: rest⟩)
    (hemit : g.emit t slots tape = .ok (slot, tape')) :
    Balanced dimension ⟨tape', g.enterAt slots t (some slot), hits, rest⟩ := by
  obtain ⟨habove, hrest⟩ := List.pairwise_cons.1 h.above
  constructor
  · exact hrest
  · intro p hp
    have hlt : t < p := habove _ hp p rfl
    rw [get_enterAt, if_neg (ne_of_lt hlt)]
    exact h.unslotted p (List.mem_cons_of_mem _ hp)
  · have hbalance := h.balance
    obtain ⟨hsize, hedges⟩ := sizes_of_emit hemit
    simp only [List.length_cons, due_leave] at hbalance hsize hedges ⊢
    omega

/-- The state from which the pass starts. -/
theorem Balanced.start
    {vs : List g.Variable}
    (h : Binds vs tape slots)
    (root : g.Term) :
    Balanced vs.length ⟨tape, slots, 0, [.enter root]⟩ := by
  constructor
  · simp
  · simp
  · simp [h.size, h.edges]

/-- A step keeps the balance. -/
theorem Balanced.step
    {s r : LoweringState g}
    (h : Balanced dimension s)
    (hr : g.lowerStep s = .ok r) :
    Balanced dimension r := by
  rcases s with ⟨tape, slots, hits, _ | ⟨t | t, rest⟩⟩
  · cases hr
    exact h
  · rw [lowerStep] at hr
    split at hr
    · cases hr
      exact h.hit
    · rename_i hslot
      split at hr
      · cases hr
      · cases hr
        exact h.expand (Option.not_isSome_iff_eq_none.1 hslot)
  · have hslot : slots.get t = none := h.unslotted t List.mem_cons_self
    rw [lowerStep, if_neg (by simp [hslot])] at hr
    split at hr
    · cases hr
    · cases hr
      exact h.leave ‹_›

end Balance

section Results

variable [Scalar κ α] {root : g.Term} {vs : List g.Variable} {l : Lowered κ α}

/-- The pass ends with nothing due. -/
theorem balance_of_lower
    {s : LoweringState g}
    (h : g.lower root vs = .ok s) :
    s.hits + s.tape.size = s.tape.edges.size + vs.length + 1 := by
  rcases bindAll_outcome root vs with ⟨⟨tape, slots⟩, hbind, hbinds⟩ | ⟨e, hbind, -⟩
  · rw [lower, hbind, ok_bind] at h
    obtain ⟨hend, hstack⟩ :=
      lowerFrom_preserves (fun s r hs hr => hs.step hr) _ (Balanced.start hbinds root) h
    simpa [hstack] using hend.balance
  · rw [lower, hbind, error_bind] at h
    cases h

/-- The wrapper of a lone variable is a slot with one edge. -/
theorem balance_of_ofTerm
    (h : Tape.ofTerm g root vs = .ok l) :
    l.hits + l.tape.size = l.tape.edges.size + vs.length + 1 := by
  rw [Tape.ofTerm] at h
  obtain ⟨s, hs, h⟩ := bind_eq_ok_iff.1 h
  have hbalance := balance_of_lower hs
  split at h
  · cases h
  · split at h
    · split at h
      · cases h
      · rename_i wrapper tape hpush
        cases h
        obtain ⟨-, -, -, hwrapper⟩ := Tape.pushOp_eq_ok hpush
        obtain ⟨-, rfl⟩ := Prod.mk.inj hwrapper
        simp only [Tape.size_withSlot, Tape.size_edges_withSlot, List.length_singleton]
        omega
    · cases h
      exact hbalance

/-- The hits are the operands that do not use a computed term for the first time, and a root that
is a lone variable. -/
theorem hits_add_card
    (h : Tape.ofTerm g root vs = .ok l) :
    l.hits + (g.computedBelow root).card =
      (∑ t ∈ g.computedBelow root, (g.operands t).length) + 1 := by
  have hbalance := balance_of_ofTerm h
  rcases ofTerm_outcome root vs with ⟨l', hl, s, done, hfinished, hends⟩ | ⟨e, he, -⟩
  · obtain rfl := Except.ok.inj (h.symm.trans hl)
    have hsize := hfinished.progress.size
    have hedges := hfinished.progress.edges
    have hdone := hfinished.done_eq_computedWalk
    have hbelow : done.toFinset = g.computedBelow root := by
      ext t
      rw [hdone, List.mem_toFinset, mem_computedWalk, mem_computedBelow]
    rw [length_slotTerms, hdone, length_computedWalk] at hsize
    rw [← List.sum_toFinset _ hfinished.progress.nodup, hbelow] at hedges
    rw [hends.size_eq, hends.size_edges_eq] at hbalance
    omega
  · rw [h] at he
    cases he

/-- Compiling a term first reports the number of variables, the length of the tape, the number of
its edges and the number of hits.  Hits and length together are one more than edges and variables
together. -/
theorem hits_balance
    (options : Options)
    (h : Tape.ofTerm g root vs = .ok l) :
    (CompiledTerm.compileReports g root vs options).head? =
        some (.lowered l.tape.dimension l.tape.size l.tape.edges.size l.hits) ∧
      l.tape.dimension = vs.length ∧
      l.hits + l.tape.size = l.tape.edges.size + l.tape.dimension + 1 := by
  have hdimension : l.tape.dimension = vs.length := by
    rcases ofTerm_outcome root vs with ⟨l', hl, s, done, hfinished, hends⟩ | ⟨e, he, -⟩
    · obtain rfl := Except.ok.inj (h.symm.trans hl)
      rw [hends.same.1, hfinished.progress.dimension]
    · rw [h] at he
      cases he
  refine ⟨?_, hdimension, ?_⟩
  · rw [CompiledTerm.compileReports, h]
    rfl
  · rw [hdimension]
    exact balance_of_ofTerm h

/-- Of two uses of the product, the second is a hit, as are both operands of the product. -/
theorem hits_balance_doubled :
    ∃ l, Tape.ofTerm doubled doubled.root [doubled.x] = .ok l ∧
      (CompiledTerm.compileReports doubled doubled.root [doubled.x] {}).head? =
        some (.lowered 1 3 4 3) ∧
      l.hits + l.tape.size = l.tape.edges.size + l.tape.dimension + 1 := by
  obtain ⟨l, -, hofTerm, -⟩ := ofTerm_spec lowerable_doubled
  obtain ⟨hreport, -, hbalance⟩ := hits_balance {} hofTerm
  have hsizes : (Tape.ofTerm doubled doubled.root [doubled.x]).map Lowered.report =
      .ok (.lowered 1 3 4 3) := by cbv
  rw [hofTerm] at hsizes
  exact ⟨l, hofTerm, hreport.trans (congrArg some (Except.ok.inj hsizes)), hbalance⟩

end Results
end Graph
end ReverseMode
