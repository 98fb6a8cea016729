import Mathlib
import ReverseMode.Proofs.Lowering.Emission
import ReverseMode.Proofs.Term.Order

/-!
# The layout of a lowered term

Which term each slot of a tape stands for.  The leading slots stand for the variables, in the
order of their list, and each slot after them for a term whose operands have earlier slots.

**Input.**
* `Lowerable`: the variables are distinct and contain all that the term reads, and the 32-bit
  tables have room for its distinct nodes.

**Results.**
* `Locates.push`, `Locates.operandSlots_eq_ok`: a table of slots that follows the terms of a tape
  has the slots of all operands.
* `Layout.grow`, `Layout.push`: how the layout follows the growth of a tape.
-/

namespace ReverseMode
namespace Graph

variable {κ α : Type} [Exponent κ] {g : Graph κ α}

section Reach

open Classical in
/-- The terms that a term reaches and that are not variables. -/
noncomputable def computedBelow (g : Graph κ α) (root : g.Term) : Finset g.Term :=
  Finset.univ.filter fun t => g.Reaches root t ∧ g.isVariable t = false

theorem mem_computedBelow
    {root t : g.Term} :
    t ∈ g.computedBelow root ↔ g.Reaches root t ∧ g.isVariable t = false := by
  simp [computedBelow]

/-- The number of slots that a lone variable is wrapped in. -/
def wrappers (g : Graph κ α) (root : g.Term) : Nat :=
  if g.isVariable root then 1 else 0

/-- What a term and a list of variables must be for the term to have a tape over them. -/
structure Lowerable (g : Graph κ α) (root : g.Term) (vs : List g.Variable) : Prop where
  /-- No variable is repeated. -/
  nodup : vs.Nodup
  /-- The list has all variables of the term. -/
  bound : ∀ v : g.Variable, g.Reaches root v.1 → v ∈ vs
  /-- There is an index for each slot. -/
  slots_fit : vs.length + (g.computedBelow root).card + g.wrappers root ≤ indexLimit
  /-- There is a 32-bit offset for each edge; beyond that, windows would not lie one after another
  as the shape of a tape demands. -/
  edges_fit :
    (∑ t ∈ g.computedBelow root, (g.operands t).length) + g.wrappers root < UInt32.size

/-- A term whose variables are in the list fits where its whole graph does. -/
theorem lowerable_of_bound
    {root : g.Term} {vs : List g.Variable}
    (hnodup : vs.Nodup)
    (hbound : ∀ v : g.Variable, g.Reaches root v.1 → v ∈ vs)
    (hslots : vs.length + g.size < indexLimit)
    (hedges : (∑ t : g.Term, (g.operands t).length) + 1 < UInt32.size) :
    g.Lowerable root vs := by
  have hwrap : g.wrappers root ≤ 1 := by
    rw [wrappers]
    split <;> omega
  have hcard := Finset.card_le_univ (g.computedBelow root)
  rw [Fintype.card_fin] at hcard
  have harity : ∑ t ∈ g.computedBelow root, (g.operands t).length ≤
      ∑ t : g.Term, (g.operands t).length :=
    Finset.sum_le_sum_of_subset (Finset.subset_univ _)
  exact ⟨hnodup, hbound, by omega, by omega⟩

/-- A term fits where its whole graph does. -/
theorem lowerable_of_graph_fits
    {vs : List g.Variable}
    (root : g.Term)
    (hnodup : vs.Nodup)
    (hbound : ∀ v : g.Variable, v ∈ vs)
    (hslots : vs.length + g.size < indexLimit)
    (hedges : (∑ t : g.Term, (g.operands t).length) + 1 < UInt32.size) :
    g.Lowerable root vs :=
  lowerable_of_bound hnodup (fun v _ => hbound v) hslots hedges

end Reach

section Tables

/-- The terms that slots stand for: the variables, then the computed ones. -/
def slotTerms (vs : List g.Variable) (done : List g.Term) : List g.Term :=
  vs.map (fun v => v.1) ++ done

/-- A table of slots that has the position of each term of a list, and no other entry. -/
def Locates (slots : g.Table (Option Nat)) (terms : List g.Term) : Prop :=
  ∀ t i, slots.get t = some i ↔ terms[i]? = some t

variable {slots : g.Table (Option Nat)} {terms : List g.Term}

theorem locates_nil : Locates (g.table none) [] := by
  intro t i
  simp

theorem Locates.isSome_iff
    (h : Locates slots terms)
    {t : g.Term} :
    (slots.get t).isSome = true ↔ t ∈ terms := by
  rw [Option.isSome_iff_exists, List.mem_iff_getElem?]
  exact exists_congr fun i => h t i

theorem Locates.get_eq_none
    (h : Locates slots terms)
    {t : g.Term}
    (ht : t ∉ terms) :
    slots.get t = none := by
  rw [← Option.not_isSome_iff_eq_none, h.isSome_iff]
  exact ht

/-- No term has two slots. -/
theorem Locates.nodup
    (h : Locates slots terms) :
    terms.Nodup := by
  rw [List.nodup_iff_injective_getElem]
  intro i j hij
  have hij : terms[i] = terms[j] := hij
  have hi := (h terms[i] i).2 (List.getElem?_eq_getElem i.isLt)
  have hj := (h terms[j] j).2 (List.getElem?_eq_getElem j.isLt)
  rw [hij, hj] at hi
  exact Fin.ext (Option.some.inj hi).symm

theorem Locates.push
    (h : Locates slots terms)
    {t : g.Term}
    (ht : t ∉ terms) :
    Locates (g.enterAt slots t (some terms.length)) (terms ++ [t]) := by
  intro u i
  rw [get_enterAt, List.getElem?_append]
  split
  · rename_i htu
    subst htu
    split
    · rename_i hi
      constructor
      · rintro ⟨⟩
        omega
      · intro hu
        exact absurd (List.mem_of_getElem? hu) ht
    · rename_i hi
      constructor
      · rintro ⟨⟩
        simp
      · intro hu
        have hlt := (List.getElem?_eq_some_iff.1 hu).1
        simp only [List.length_singleton] at hlt
        rw [show terms.length = i by omega]
  · rename_i htu
    rw [h u i]
    split
    · rfl
    · rename_i hi
      rw [List.getElem?_eq_none (by omega)]
      constructor
      · intro hu
        cases hu
      · intro hu
        have hmem := List.mem_of_getElem? hu
        rw [List.mem_singleton] at hmem
        exact absurd hmem.symm htu

/-- The operands of a term have slots once they are all located. -/
theorem Locates.operandSlots_eq_ok
    (h : Locates slots terms)
    {ts : List g.Term}
    (hts : ∀ u ∈ ts, u ∈ terms) :
    ∃ sources, g.operandSlots slots ts = .ok sources ∧
      sources.map (fun j => terms[j]?) = ts.map some := by
  induction ts with
  | nil => exact ⟨[], rfl, rfl⟩
  | cons t ts ih =>
      obtain ⟨sources, hsources, hmap⟩ := ih fun u hu => hts u (List.mem_cons_of_mem t hu)
      obtain ⟨i, hi⟩ := List.mem_iff_getElem?.1 (hts t (by simp))
      refine ⟨i :: sources, ?_, by rw [List.map_cons, List.map_cons, hmap, hi]⟩
      rw [operandSlots] at hsources ⊢
      rw [List.mapM_cons, hsources, (h t i).2 hi]
      rfl

end Tables

section Layout

variable {vs : List g.Variable} {tape : Tape κ α} {terms done : List g.Term}
  {i : Nat} {t u : g.Term}

@[simp] theorem length_slotTerms (vs : List g.Variable) (done : List g.Term) :
    (slotTerms vs done).length = vs.length + done.length := by
  simp [slotTerms]

theorem slotTerms_append (vs : List g.Variable) (done more : List g.Term) :
    slotTerms vs (done ++ more) = slotTerms vs done ++ more := by
  rw [slotTerms, slotTerms, List.append_assoc]

/-- The term of a slot is a variable or a computed term. -/
theorem slotTerms_cases
    (h : (slotTerms vs done)[i]? = some t) :
    (∃ v, vs[i]? = some v ∧ v.1 = t) ∨ ∃ k, i = vs.length + k ∧ done[k]? = some t := by
  rw [slotTerms, List.getElem?_append, List.length_map] at h
  split at h
  · rw [List.getElem?_map] at h
    exact .inl (Option.map_eq_some_iff.1 h)
  · exact .inr ⟨i - vs.length, by omega, h⟩

theorem slotTerms_add
    (h : done[i]? = some t) :
    (slotTerms vs done)[vs.length + i]? = some t := by
  rw [slotTerms, List.getElem?_append_right (by simp), List.length_map, Nat.add_sub_cancel_left, h]

theorem map_getElem?_append
    {sources : List Nat} {us : List g.Term}
    (h : sources.map (fun j => terms[j]?) = us.map some)
    (more : List g.Term) :
    sources.map (fun j => (terms ++ more)[j]?) = us.map some := by
  rw [← h]
  apply List.map_congr_left
  intro j hj
  have hmem : terms[j]? ∈ us.map some := h ▸ List.mem_map_of_mem hj
  obtain ⟨u, -, hu⟩ := List.mem_map.1 hmem
  have hlt := (List.getElem?_eq_some_iff.1 hu.symm).1
  exact List.getElem?_append_left hlt

variable [Scalar κ α]

/-- The slot at index `i` stands for the term `t`, and reads the slots of its operands. -/
def StandsAt (tape : Tape κ α) (terms : List g.Term) (i : Nat) (t : g.Term) : Prop :=
  ∃ s : Slot κ α, tape.slots[i]? = some s ∧ Stands tape.callbacks (g.node t) s.op s.value ∧
    (tape.sourcesIn s.inputs).map (fun j => terms[j]?) = (g.operands t).map some

/-- The slots after the variables stand for the terms of a list, one after another. -/
structure Layout (vs : List g.Variable) (tape : Tape κ α) (done : List g.Term) : Prop where
  dimension : tape.dimension = vs.length
  size_le : (slotTerms vs done).length ≤ tape.size
  stands : ∀ (i : Nat) (t : g.Term), done[i]? = some t →
    StandsAt tape (slotTerms vs done) (vs.length + i) t

/-- What a slot stands for stays as it is when the tape grows. -/
theorem StandsAt.grow
    {c : Callbacks α}
    (h : StandsAt tape terms i t)
    (ht : tape.Sound)
    (hc : tape.callbacks.Grown c)
    (op : Op κ) (v : α) (sources : List Nat) (more : List g.Term) :
    StandsAt ({ tape with callbacks := c }.withSlot op v sources) (terms ++ more) i t := by
  obtain ⟨s, hs, hstands, hoperands⟩ := h
  have hi := (Array.getElem?_eq_some_iff.1 hs).1
  refine ⟨s, ?_, hstands.grow hc, ?_⟩
  · rw [Tape.slots_withSlot, Array.getElem?_push, if_neg (by simp; omega)]
    exact hs
  · have hsame : ({ tape with callbacks := c }.withSlot op v sources).sourcesIn s.inputs =
        tape.sourcesIn s.inputs :=
      Tape.sourcesIn_of_edges_eq_append (Tape.edges_withSlot _ op v sources) (ht.slot hs).window
    rw [hsame]
    exact map_getElem?_append hoperands more

/-- The layout of a tape stays as it is when the tape grows. -/
theorem Layout.grow
    {c : Callbacks α} {op : Op κ} {v : α} {sources : List Nat}
    (h : Layout vs tape done)
    (ht : tape.Sound)
    (hc : tape.callbacks.Grown c) :
    Layout vs ({ tape with callbacks := c }.withSlot op v sources) done := by
  constructor
  · exact h.dimension
  · rw [Tape.size_withSlot]
    exact Nat.le_succ_of_le h.size_le
  · intro k t hk
    have hgrown := (h.stands k t hk).grow ht hc op v sources []
    rwa [List.append_nil] at hgrown

/-- A slot that stands for a further term, at the end of the tape, adds it to the layout. -/
theorem Layout.push
    {c : Callbacks α} {op : Op κ} {v : α} {sources : List Nat}
    (h : Layout vs tape done)
    (ht : tape.Sound)
    (hsize : tape.size = (slotTerms vs done).length)
    (hcap : tape.edges.size + sources.length < UInt32.size)
    (hc : tape.callbacks.Grown c)
    (hstands : Stands c (g.node t) op v)
    (hsources : sources.map (fun j => (slotTerms vs done)[j]?) = (g.operands t).map some) :
    Layout vs ({ tape with callbacks := c }.withSlot op v sources) (done ++ [t]) := by
  constructor
  · exact h.dimension
  · rw [Tape.size_withSlot, length_slotTerms, List.length_append, ← Nat.add_assoc,
      ← length_slotTerms, ← hsize]
    exact Nat.le_refl _
  · intro k u hk
    rw [slotTerms_append]
    rw [List.getElem?_append] at hk
    split at hk
    · exact (h.stands k u hk).grow ht hc op v sources [t]
    · rename_i hle
      obtain rfl : k = done.length := by
        have := (List.getElem?_eq_some_iff.1 hk).1
        simp only [List.length_singleton] at this
        omega
      obtain rfl : t = u := by simpa using hk
      have hs := Tape.slots_withSlot { tape with callbacks := c } op v sources
      have hat : vs.length + done.length = tape.slots.size := by
        rw [← length_slotTerms, ← hsize, Tape.size]
      have hself := Tape.sourcesIn_withSlot_self (t := { tape with callbacks := c }) op v hcap
      refine ⟨⟨op, v, 0, Window.ofNat tape.edges.size sources.length⟩, ?_, hstands, ?_⟩
      · rw [hs, hat, Array.getElem?_push, if_pos rfl]
      · rw [hself]
        exact map_getElem?_append hsources [t]

end Layout

end Graph
end ReverseMode
