import ReverseMode.Proofs.Lowering.Values
import ReverseMode.Proofs.Tape.WellFormed

/-!
# The exact layout of the tape of a term

**Input.**  A term and a list of variables over which lowering ends without a binding error, where
32-bit words are enough to number slots and edges.

**Argument.**  The pass appends terms in the order of a walk, so the slots after the variables are
the computed terms of the walk, each once.  A path from the root to a term is a path of edges from
the slot of the term to that of the root.

**Results.**
* `Represents.feeds_root`: every slot reaches the slot of the root along edges.
* `Represents.isWellFormed`: the tape has the shape that decoding asks for.
* `ofTerm_exactLayout`: which slots the tape has, and in which order.
-/

namespace ReverseMode

variable {κ α : Type} [Exponent κ] [Scalar κ α]

/-- Slot `i` reads slot `j`. -/
def Tape.Feeds (t : Tape κ α) (j i : Nat) : Prop :=
  ∃ s : Slot κ α, t.slots[i]? = some s ∧ j ∈ t.sourcesIn s.inputs

/-- The exponent of a slot that stands for a node is as valid as the node. -/
theorem Stands.exponentValid
    {c : Callbacks α} {ι : Type} {n : Node κ α ι} {op : Op κ} {v : α}
    (h : Stands c n op v)
    (hn : n.refusal? = none) :
    op.exponentValid = true := by
  cases h with
  | constPower a k v =>
      rw [Node.refusal?] at hn
      split at hn
      · assumption
      · cases hn
  | _ => rfl

namespace Graph

variable {g : Graph κ α} {root : g.Term} {vs : List g.Variable} {s : LoweringState g}
  {tape : Tape κ α} {done : List g.Term}

section Order

/-- The terms that a walk meets and that are not variables. -/
def computedWalk (g : Graph κ α) (root : g.Term) : List g.Term :=
  (g.walk root).filter fun t => !g.isVariable t

omit [Scalar κ α] in
theorem mem_computedWalk
    {t : g.Term} :
    t ∈ g.computedWalk root ↔ g.Reaches root t ∧ g.isVariable t = false := by
  rw [computedWalk, List.mem_filter, mem_walk, Bool.not_eq_true']

omit [Scalar κ α] in
theorem nodup_computedWalk (root : g.Term) : (g.computedWalk root).Nodup :=
  (nodup_walk root).filter _

omit [Scalar κ α] in
theorem length_computedWalk (root : g.Term) :
    (g.computedWalk root).length = (g.computedBelow root).card := by
  rw [← List.toFinset_card_of_nodup (nodup_computedWalk root)]
  congr 1
  ext t
  rw [List.mem_toFinset, mem_computedWalk, Graph.mem_computedBelow]

/-- The terms that get slots after the variables are the computed terms of the walk. -/
theorem Finished.done_eq_computedWalk
    (h : Finished root vs s done) :
    done = g.computedWalk root := by
  rw [h.done_eq, computedWalk]
  apply List.filter_congr
  intro t ht
  cases hvar : g.isVariable t with
  | true =>
      have hmem := h.mem_slotTerms (mem_walk.1 ht)
      rcases List.mem_append.1 hmem with hmem | hmem
      · exact decide_eq_false (not_not.2 hmem)
      · have hfalse := (Graph.mem_computedBelow.1 (h.progress.below t hmem)).2
        exact absurd (hvar.symm.trans hfalse) (by decide)
  | false =>
      have hmem : t ∉ vs.map fun v => v.1 := by
        intro hmem
        obtain ⟨v, -, rfl⟩ := List.mem_map.1 hmem
        exact absurd (v.2.symm.trans hvar) (by decide)
      exact decide_eq_true hmem

/-- A term that fits has a tape, whose slots after the variables are the computed terms of a walk
in their order, and a wrapper if the term is a lone variable. -/
theorem ofTerm_walk
    (hl : g.Lowerable root vs) :
    ∃ l, Tape.ofTerm g root vs = .ok l ∧ Represents root vs l.tape (g.computedWalk root) ∧
      l.tape.size = (slotTerms vs (g.computedWalk root)).length + g.wrappers root := by
  rcases ofTerm_outcome root vs with ⟨l, hofTerm, s, done, h, hends⟩ | ⟨e, -, hrefused⟩
  · have hrep := h.represents hends hofTerm hl.edges_fit
    have hsize := hends.size_eq
    rw [h.progress.size] at hsize
    rw [h.done_eq_computedWalk] at hrep hsize
    exact ⟨l, hofTerm, hrep, hsize⟩
  · exact absurd hrefused hl.not_refusal

end Order

section Slots

/-- All exponents of the tape of a term are valid. -/
theorem Represents.exponentValid
    (h : Represents root vs tape done)
    {r : Slot κ α}
    (hr : r ∈ tape.slots) :
    r.op.exponentValid = true := by
  obtain ⟨i, hi⟩ := Array.mem_iff_getElem?.1 hr
  rcases h.op_cases hi with hop | ⟨t, -, hstands, -⟩ | hop
  · rw [hop]
    rfl
  · exact hstands.exponentValid (g.refusal?_node t)
  · rw [hop]
    exact Exponent.valid_one

end Slots

section Paths

variable {i j : Nat} {t u : g.Term}

/-- The slot of an operand feeds the slot of the term. -/
theorem Represents.feeds
    (h : Represents root vs tape done)
    (hnodup : (slotTerms vs done).Nodup)
    (hu : u ∈ g.operands t)
    (hj : (slotTerms vs done)[j]? = some u)
    (hi : (slotTerms vs done)[i]? = some t) :
    tape.Feeds j i := by
  rcases slotTerms_cases hi with ⟨v, -, rfl⟩ | ⟨k, rfl, hk⟩
  · rw [operands_of_isVariable v.2] at hu
    cases hu
  · obtain ⟨s, hs, -, hoperands⟩ := h.layout.stands k t hk
    have hmem : some u ∈ (tape.sourcesIn s.inputs).map fun j => (slotTerms vs done)[j]? := by
      rw [hoperands]
      exact List.mem_map_of_mem hu
    obtain ⟨j', hj', hju⟩ := List.mem_map.1 hmem
    -- No term has two slots, so this is the slot of the operand.
    have hlt := (List.getElem?_eq_some_iff.1 hj).1
    obtain rfl : j = j' := (List.getElem?_inj hlt hnodup).1 (hj.trans hju.symm)
    exact ⟨s, hs, hj'⟩

/-- The slot of every term that the root reaches reaches the slot of the root along edges. -/
theorem Represents.feeds_root
    {r : Nat}
    (h : Represents root vs tape done)
    (hnodup : (slotTerms vs done).Nodup)
    (hslot : ∀ t, g.Reaches root t → t ∈ slotTerms vs done)
    (hr : (slotTerms vs done)[r]? = some root)
    (ht : g.Reaches root t)
    (hi : (slotTerms vs done)[i]? = some t) :
    Relation.ReflTransGen tape.Feeds i r := by
  induction ht generalizing i with
  | refl =>
      have hlt := (List.getElem?_eq_some_iff.1 hi).1
      obtain rfl : i = r := (List.getElem?_inj hlt hnodup).1 (hi.trans hr.symm)
      exact .refl
  | tail hb hu ih =>
      obtain ⟨k, hk⟩ := List.mem_iff_getElem?.1 (hslot _ hb)
      exact .head (h.feeds hnodup hu hi hk) (ih hk)

/-- The slot of the root reaches the last slot. -/
theorem Represents.root_feeds_last
    {r : Nat}
    (h : Represents root vs tape done)
    (hnodup : (slotTerms vs done).Nodup)
    (hr : (slotTerms vs done)[r]? = some root) :
    Relation.ReflTransGen tape.Feeds r (tape.size - 1) := by
  have hlt := (List.getElem?_eq_some_iff.1 hr).1
  rcases h.output with ⟨-, hroot⟩ | ⟨-, hs, -, hsource, hroot⟩
  · obtain rfl : r = tape.size - 1 := (List.getElem?_inj hlt hnodup).1 (hr.trans hroot.symm)
    exact .refl
  · refine .single ⟨_, hs, ?_⟩
    rw [hsource, List.mem_singleton]
    exact (List.getElem?_inj hlt hnodup).1 (hr.trans hroot.symm)

end Paths

section Layout

/-- What the tape of a term is, slot by slot: the variables in the order of the list, the computed
terms in the order of a walk, and a wrapper if the term is a lone variable. -/
structure ExactLayout (root : g.Term) (vs : List g.Variable) (tape : Tape κ α) : Prop where
  dimension : tape.dimension = vs.length
  size : tape.size = vs.length + (g.computedBelow root).card + g.wrappers root
  input : ∀ i < vs.length, ∃ s : Slot κ α, tape.slots[i]? = some s ∧ s.op = .input
  /-- The terms after the variables are those that the root reaches and that are not variables. -/
  computed : ∀ t, t ∈ g.computedWalk root ↔ g.Reaches root t ∧ g.isVariable t = false
  /-- No term has two slots. -/
  nodup : (slotTerms vs (g.computedWalk root)).Nodup
  /-- Each computed term has its slot, whose edges name the slots of its operands in order. -/
  stands : ∀ i t, (g.computedWalk root)[i]? = some t →
    StandsAt tape (slotTerms vs (g.computedWalk root)) (vs.length + i) t
  last : g.isVariable root = false →
    (slotTerms vs (g.computedWalk root))[tape.size - 1]? = some root
  wrapper : g.isVariable root = true → ∃ (s : Slot κ α) (i : Nat),
    tape.slots[tape.size - 1]? = some s ∧ s.op = .constPower Exponent.one ∧
      tape.sourcesIn s.inputs = [i] ∧ (vs[i]?.map fun v => v.1) = some root
  /-- Nothing is computed that the output does not read. -/
  used : ∀ i, vs.length ≤ i → i < tape.size →
    Relation.ReflTransGen tape.Feeds i (tape.size - 1)
  wellFormed : tape.isWellFormed = true

/-- The tape of a term has the shape that decoding asks for. -/
theorem Represents.isWellFormed
    {l : Lowered κ α}
    (h : Represents root vs l.tape done)
    (hofTerm : Tape.ofTerm g root vs = .ok l)
    (hcap : l.tape.edges.size < UInt32.size)
    (hsize : vs.length < l.tape.size) :
    l.tape.isWellFormed = true := by
  have hregular := Tape.Regular.built (Tape.built_ofTerm hofTerm) hcap
  rw [Tape.isWellFormed_iff h.sound hregular, h.layout.dimension]
  exact ⟨hsize, fun r hr => h.exponentValid hr⟩

/-- Nothing is computed that the output does not read. -/
theorem Finished.feeds_last
    (h : Finished root vs s done)
    (hrep : Represents root vs tape done)
    {i : Nat}
    (hi : vs.length ≤ i)
    (hlt : i < tape.size) :
    Relation.ReflTransGen tape.Feeds i (tape.size - 1) := by
  have hnodup := h.progress.located.nodup
  obtain ⟨r, hr⟩ := List.mem_iff_getElem?.1 (h.mem_slotTerms .refl)
  rcases hrep.slot_cases hlt with ⟨t, ht⟩ | ⟨rfl, -⟩
  · rcases slotTerms_cases ht with ⟨v, hv, -⟩ | ⟨k, -, hk⟩
    · have := (List.getElem?_eq_some_iff.1 hv).1
      omega
    · have hreach := (Graph.mem_computedBelow.1
        (h.progress.below t (List.mem_of_getElem? hk))).1
      exact (hrep.feeds_root hnodup (fun t ht => h.mem_slotTerms ht) hr hreach ht).trans
        (hrep.root_feeds_last hnodup hr)
  · exact .refl

/-- A lone variable is wrapped. -/
theorem Finished.wrapper
    (h : Finished root vs s done)
    (hends : Ends root vs s.tape done tape)
    (hrep : Represents root vs tape done)
    (hvar : g.isVariable root = true) :
    ∃ (r : Slot κ α) (i : Nat), tape.slots[tape.size - 1]? = some r ∧
      r.op = .constPower Exponent.one ∧ tape.sourcesIn r.inputs = [i] ∧
        (vs[i]?.map fun v => v.1) = some root := by
  rcases hrep.output with ⟨hlength, -⟩ | ⟨-, hs, hop, hsource, hroot⟩
  · have hmore := hends.size_eq
    rw [hlength, h.progress.size, wrappers, if_pos hvar] at hmore
    omega
  · refine ⟨_, _, hs, hop, hsource, ?_⟩
    rcases slotTerms_cases hroot with ⟨v, hv, rfl⟩ | ⟨k, -, hk⟩
    · rw [hv]
      rfl
    · have hfalse := (Graph.mem_computedBelow.1
        (h.progress.below root (List.mem_of_getElem? hk))).2
      exact absurd (hvar.symm.trans hfalse) (by decide)

theorem Finished.exactLayout
    {l : Lowered κ α}
    (h : Finished root vs s done)
    (hends : Ends root vs s.tape done l.tape)
    (hofTerm : Tape.ofTerm g root vs = .ok l)
    (hedges : (∑ t ∈ g.computedBelow root, (g.operands t).length) + g.wrappers root <
      UInt32.size) :
    ExactLayout root vs l.tape := by
  have hrep := h.represents hends hofTerm hedges
  have hnodup := h.progress.located.nodup
  have hcap := Nat.lt_of_le_of_lt (h.size_edges_le hends) hedges
  have hsize : l.tape.size = vs.length + (g.computedBelow root).card + g.wrappers root := by
    rw [hends.size_eq, h.progress.size, length_slotTerms, h.done_eq_computedWalk,
      length_computedWalk]
  have hlast : g.isVariable root = false →
      (slotTerms vs done)[l.tape.size - 1]? = some root := by
    intro hvar
    rw [hends.size_eq, wrappers, if_neg (by simp [hvar])]
    exact h.last hvar
  have hused := fun i hi hlt => h.feeds_last hrep (i := i) hi hlt
  have hwrapper := h.wrapper hends hrep
  have hlt : vs.length < l.tape.size := by
    cases hvar : g.isVariable root with
    | true =>
        rw [wrappers, if_pos hvar] at hsize
        omega
    | false =>
        have hpos := Finset.card_pos.2 ⟨root, Graph.mem_computedBelow.2 ⟨.refl, hvar⟩⟩
        omega
  rw [h.done_eq_computedWalk] at hnodup hlast hrep
  exact {
    dimension := hrep.layout.dimension
    size := hsize
    input := fun i hi => hrep.input hi
    computed := fun t => mem_computedWalk
    nodup := hnodup
    stands := hrep.layout.stands
    last := hlast
    wrapper := hwrapper
    used := hused
    wellFormed := hrep.isWellFormed hofTerm hcap hlt }

/-- Lowering a term over any list of variables fails with a binding error or gives the tape that
is laid out exactly, as long as 32-bit words number its slots and edges. -/
theorem ofTerm_exactLayout
    (hbinding : ∀ e, Tape.ofTerm g root vs ≠ .error (.binding e))
    (hslots : vs.length + (g.computedBelow root).card + g.wrappers root ≤ indexLimit)
    (hedges : (∑ t ∈ g.computedBelow root, (g.operands t).length) + g.wrappers root <
      UInt32.size) :
    ∃ l, Tape.ofTerm g root vs = .ok l ∧ ExactLayout root vs l.tape := by
  rcases ofTerm_outcome root vs with ⟨l, hofTerm, s, done, h, hends⟩ | ⟨e, he, hrefused⟩
  · exact ⟨l, hofTerm, h.exactLayout hends hofTerm hedges⟩
  · cases hrefused with
    | duplicate _ => exact absurd he (hbinding _)
    | unbound _ _ => exact absurd he (hbinding _)
    | tooLong hlong => omega

/-- The tapes of `x * x + x * x` with one and with two products. -/
theorem ofTerm_exactLayout_doubled :
    (∀ e, Tape.ofTerm doubled doubled.root [doubled.x] ≠ .error (.binding e)) ∧
      (∀ e, Tape.ofTerm doubledApart doubledApart.root [doubledApart.x] ≠ .error (.binding e)) ∧
      (∃ l, Tape.ofTerm doubled doubled.root [doubled.x] = .ok l ∧
        ExactLayout doubled.root [doubled.x] l.tape) ∧
      ∃ l, Tape.ofTerm doubledApart doubledApart.root [doubledApart.x] = .ok l ∧
        ExactLayout doubledApart.root [doubledApart.x] l.tape := by
  have hok : ∀ {g : Graph Nat Int} {root : g.Term} {vs : List g.Variable},
      g.Lowerable root vs → ∀ e, Tape.ofTerm g root vs ≠ .error (.binding e) := by
    intro g root vs hl e he
    obtain ⟨l, -, hofTerm, -⟩ := ofTerm_spec hl
    rw [hofTerm] at he
    cases he
  have hone := hok lowerable_doubled
  have htwo := hok lowerable_doubledApart
  exact ⟨hone, htwo,
    ofTerm_exactLayout hone lowerable_doubled.slots_fit lowerable_doubled.edges_fit,
    ofTerm_exactLayout htwo lowerable_doubledApart.slots_fit lowerable_doubledApart.edges_fit⟩

/-- A product that is used twice has one slot. -/
example : (Tape.ofTerm doubled doubled.root [doubled.x]).map (fun l => l.tape.size) = .ok 3 := by
  cbv

/-- Two equal products have two. -/
example : (Tape.ofTerm doubledApart doubledApart.root [doubledApart.x]).map
    (fun l => l.tape.size) = .ok 4 := by
  cbv

end Layout
end Graph
end ReverseMode
