import ReverseMode.Proofs.Tape.Plan

/-!
# The equations of values and partials

The values of a tape at a point solve one equation per slot: a variable has its coordinate,
any other slot the result of its operation at the values it reads.  Since slots read earlier
slots only, the equations have one solution on the slots of the tape.

**Results.**
* `Valuation.unique`: the values at a point are determined by the plan.
* `forward_spec`: a forward sweep of a sound tape ends without a fault in the values that solve
  the equations, and leaves edges and adjoints alone.
* `forwardWithWeights_holds`: so does one that writes weights, and then every edge holds the partial
  of the last slot that shows it.
* `weightsIn_of_holds`: where windows do not overlap, each shows the partials of its slot.
-/

namespace ReverseMode

/-- What was done before place `i` of an ascending pass lies below `i`. -/
theorem lt_of_range'_eq_append
    {a n i k : Nat} {done rest : List Nat}
    (h : List.range' a n = done ++ i :: rest)
    (hk : k ∈ done) :
    k < i := by
  have hsorted := List.pairwise_lt_range' (s := a) (n := n)
  rw [h, List.pairwise_append] at hsorted
  exact hsorted.2.2 k hk i (by simp)

/-- What was done before place `i` of a descending pass lies above `i`. -/
theorem lt_of_reverse_range'_eq_append
    {a n i k : Nat} {done rest : List Nat}
    (h : (List.range' a n).reverse = done ++ i :: rest)
    (hk : k ∈ done) :
    i < k := by
  have hsorted := List.pairwise_lt_range' (s := a) (n := n)
  rw [← List.pairwise_reverse, h, List.pairwise_append] at hsorted
  exact hsorted.2.2 k hk i (by simp)

namespace Tape

variable {κ α : Type}

section Operations

variable {t : Tape κ α}

theorem unaryFn_eq_ok
    {h : Nat}
    (hreg : h < t.callbacks.unary.size) :
    t.unaryFn h = .ok t.callbacks.unary[h] := by
  simp [unaryFn, hreg]

theorem binaryFn_eq_ok
    {h : Nat}
    (hreg : h < t.callbacks.binary.size) :
    t.binaryFn h = .ok t.callbacks.binary[h] := by
  simp [binaryFn, hreg]

theorem naryFn_eq_ok
    {h : Nat}
    (hreg : h < t.callbacks.nary.size) :
    t.naryFn h = .ok t.callbacks.nary[h] := by
  simp [naryFn, hreg]

variable [Exponent κ] [Scalar κ α]

/-- The value of an operation at its operands; 0 where it has none. -/
def result (t : Tape κ α) (op : Op κ) (stored : α) (args : List α) : α :=
  (t.opValue op stored args).toOption.getD 0

/-- The partials of an operation at its operands; none where it has none. -/
def partials (t : Tape κ α) (op : Op κ) (args : List α) (r : α) : List α :=
  (t.opWeights op args r).toOption.getD []

/-- An operation with its operands has a value. -/
theorem opValue_eq_ok
    {op : Op κ} {args : List α}
    (stored : α)
    (hreg : op.RegisteredIn t.callbacks)
    (hover : op.Over args) :
    t.opValue op stored args = .ok (t.result op stored args) := by
  suffices h : ∃ v, t.opValue op stored args = .ok v by
    obtain ⟨v, hv⟩ := h
    rw [result, hv]
    rfl
  cases hover with
  | nary h => exact ⟨_, by rw [opValue, naryFn_eq_ok hreg]; rfl⟩
  | unary h a => exact ⟨_, by rw [opValue, unaryFn_eq_ok hreg]; rfl⟩
  | binary h a b => exact ⟨_, by rw [opValue, binaryFn_eq_ok hreg]; rfl⟩
  | _ => exact ⟨_, rfl⟩

/-- An operation with its operands has one partial for each of them. -/
theorem opWeights_eq_ok
    {op : Op κ} {args : List α}
    (r : α)
    (hreg : op.RegisteredIn t.callbacks)
    (hover : op.Over args) :
    t.opWeights op args r = .ok (t.partials op args r) ∧
      (t.partials op args r).length = args.length := by
  suffices h : ∃ ws, t.opWeights op args r = .ok ws ∧ ws.length = args.length by
    obtain ⟨ws, hws, hlen⟩ := h
    rw [partials, hws]
    exact ⟨rfl, hlen⟩
  cases hover with
  | sum => exact ⟨_, rfl, List.length_map _⟩
  | nary h => exact ⟨_, by rw [opWeights, naryFn_eq_ok hreg]; rfl, NaryFn.length_gradient _ _⟩
  | unary h a =>
      have hreg : h < t.callbacks.unary.size := hreg
      refine ⟨[t.callbacks.unary[h].derivative a], ?_, rfl⟩
      rw [opWeights, unaryFn_eq_ok hreg]
      rfl
  | binary h a b =>
      have hreg : h < t.callbacks.binary.size := hreg
      refine ⟨[(t.callbacks.binary[h].partials a b).1, (t.callbacks.binary[h].partials a b).2],
        ?_, rfl⟩
      rw [opWeights, binaryFn_eq_ok hreg]
      rfl
  | _ => exact ⟨_, rfl, rfl⟩

theorem opValue_congr
    {u : Tape κ α}
    (h : t.callbacks = u.callbacks)
    (op : Op κ) (stored : α) (args : List α) :
    t.opValue op stored args = u.opValue op stored args := by
  simp only [opValue, unaryFn, binaryFn, naryFn, h]

theorem opWeights_congr
    {u : Tape κ α}
    (h : t.callbacks = u.callbacks)
    (op : Op κ) (args : List α) (r : α) :
    t.opWeights op args r = u.opWeights op args r := by
  simp only [opWeights, unaryFn, binaryFn, naryFn, h]

theorem result_congr
    {u : Tape κ α}
    (h : t.callbacks = u.callbacks)
    (op : Op κ) (stored : α) (args : List α) :
    t.result op stored args = u.result op stored args := by
  rw [result, result, opValue_congr h]

theorem partials_congr
    {u : Tape κ α}
    (h : t.callbacks = u.callbacks)
    (op : Op κ) (args : List α) (r : α) :
    t.partials op args r = u.partials op args r := by
  rw [partials, partials, opWeights_congr h]

/-- Only variables and constants look at what is stored in their slot. -/
theorem result_stored
    {op : Op κ} {args : List α}
    (stored stored' : α)
    (hin : op.isInput = false)
    (hconst : op.isConst = true → stored = stored') :
    t.result op stored args = t.result op stored' args := by
  cases op with
  | input => cases hin
  | const => rw [hconst rfl]
  | _ => rfl

end Operations

section Values

variable [Exponent κ] [Scalar κ α]

/-- Values that solve the equations of a tape at a point. -/
structure Valuation (t : Tape κ α) (point : List α) (v : Nat → α) : Prop where
  loaded : ∀ i < t.dimension, point[i]? = some (v i)
  computed : ∀ {i : Nat} {s : Slot κ α}, t.slots[i]? = some s → t.dimension ≤ i →
    v i = t.result s.op s.fresh.value ((t.sourcesIn s.inputs).map v)

variable {t u : Tape κ α} {point : List α} {v w : Nat → α}

theorem Valuation.of_fresh_eq
    (hv : t.Valuation point v)
    (h : t.fresh = u.fresh) :
    u.Valuation point v := by
  have hdim := dimension_of_fresh_eq h
  constructor
  · rw [← hdim]
    exact hv.loaded
  · intro i r hr hi
    obtain ⟨s, hs, hop, hin, hconst⟩ := slot_of_fresh_eq h.symm hr
    have hval : r.fresh.value = s.fresh.value := by
      simp only [Slot.fresh, hop]
      split
      · exact (hconst ‹_›).symm
      · rfl
    rw [hval, ← hop, ← hin, ← sourcesIn_of_fresh_eq h,
      ← result_congr (callbacks_of_fresh_eq h)]
    exact hv.computed hs (hdim ▸ hi)

/-- The values at a point are determined by the plan. -/
theorem Valuation.unique
    (ht : t.Sound)
    (hv : t.Valuation point v)
    (hw : t.Valuation point w)
    {i : Nat}
    (hi : i < t.size) :
    v i = w i := by
  induction i using Nat.strongRecOn with
  | ind i ih =>
      by_cases hd : i < t.dimension
      · exact Option.some.inj ((hv.loaded i hd).symm.trans (hw.loaded i hd))
      · have hs := Array.getElem?_eq_getElem hi
        rw [hv.computed hs (by omega), hw.computed hs (by omega)]
        rw [(ht.slot hs).map_sources_congr fun j hj => ih j hj (by omega)]

end Values

section Reads

variable [Scalar κ α] {t : Tape κ α}

theorem HandlesRegistered.of_fresh_eq
    {u : Tape κ α}
    (hreg : t.HandlesRegistered)
    (h : t.fresh = u.fresh) :
    u.HandlesRegistered := by
  intro r hr
  obtain ⟨i, hi⟩ := Array.mem_iff_getElem?.1 hr
  obtain ⟨s, hs, hop, -, -⟩ := slot_of_fresh_eq h.symm hi
  rw [← hop, ← callbacks_of_fresh_eq h]
  exact hreg s (Array.mem_of_getElem? hs)

theorem operandValues_eq_ok
    (ht : t.Sound)
    {i : Nat} {s : Slot κ α}
    (hs : t.slots[i]? = some s) :
    t.operandValues i = .ok ((t.sourcesIn s.inputs).map t.value) := by
  have hsound := ht.slot hs
  have hi := (Array.getElem?_eq_some_iff.1 hs).1
  rw [operandValues, inputs_eq_ok hs hsound.window, ok_bind, sourcesIn, List.map_map]
  apply mapM_eq_ok
  intro e he
  have hlt := hsound.earlier e.source (List.mem_map_of_mem he)
  rw [valueAt_eq, if_pos (by rw [size]; omega)]
  rfl

variable [Exponent κ]

/-- A slot that computes has a value, whatever its storage holds. -/
theorem computedValue_eq_ok
    (ht : t.Sound)
    (hreg : t.HandlesRegistered)
    {i : Nat} {s : Slot κ α}
    (hs : t.slots[i]? = some s)
    (hi : t.dimension ≤ i) :
    t.computedValue i =
      .ok (t.result s.op s.fresh.value ((t.sourcesIn s.inputs).map t.value)) := by
  have hsound := ht.slot hs
  have hin : s.op.isInput = false := by
    rw [← Bool.not_eq_true, hsound.input_iff]
    omega
  rw [computedValue, slot_eq_ok hs, ok_bind, operandValues_eq_ok ht hs, ok_bind]
  rw [opValue_eq_ok s.value (hreg s (Array.mem_of_getElem? hs)) (hsound.applied.map t.value)]
  rw [result_stored s.value s.fresh.value hin fun hc => by simp [Slot.fresh, hc]]

theorem computedPartials_eq_ok
    (ht : t.Sound)
    (hreg : t.HandlesRegistered)
    {i : Nat} {s : Slot κ α}
    (hs : t.slots[i]? = some s)
    (hi : t.dimension ≤ i) :
    ∃ v, v = t.result s.op s.fresh.value ((t.sourcesIn s.inputs).map t.value) ∧
      t.computedPartials i =
        .ok (v, t.partials s.op ((t.sourcesIn s.inputs).map t.value) v) := by
  refine ⟨_, rfl, ?_⟩
  have hsound := ht.slot hs
  have hop := hreg s (Array.mem_of_getElem? hs)
  have hval := computedValue_eq_ok ht hreg hs hi
  rw [computedValue, slot_eq_ok hs, ok_bind, operandValues_eq_ok ht hs, ok_bind] at hval
  rw [computedPartials, slot_eq_ok hs, ok_bind, operandValues_eq_ok ht hs, ok_bind, hval, ok_bind]
  rw [(opWeights_eq_ok _ hop (hsound.applied.map t.value)).1]
  rfl

end Reads

section Forward

variable {t : Tape κ α} {point : List α}

theorem mem_computed {i : Nat} :
    i ∈ t.computed ↔ t.dimension ≤ i ∧ i < t.dimension + (t.size - t.dimension) := by
  rw [computed, List.mem_range'_1]

/-- The variables come first, then the computed slots. -/
theorem Sound.range_size
    (ht : t.Sound) :
    List.range t.size = List.range t.dimension ++ t.computed := by
  have happend := List.range'_append_1 (s := 0) (m := t.dimension) (n := t.size - t.dimension)
  rw [Nat.zero_add, Nat.add_sub_cancel' ht.dimension_le] at happend
  rw [computed, List.range_eq_range', List.range_eq_range', happend]

/-- A place of a forward sweep, with the slot that the plan has there. -/
theorem exists_slot_of_computed_eq
    {done rest : List Nat} {i : Nat}
    (h : t.computed = done ++ i :: rest) :
    ∃ s, t.slots[i]? = some s ∧ t.dimension ≤ i := by
  have hi : i ∈ t.computed := by simp [h]
  obtain ⟨hle, hlt⟩ := mem_computed.1 hi
  have hsize : i < t.slots.size := by
    rw [size] at hlt
    omega
  exact ⟨t.slots[i], Array.getElem?_eq_getElem hsize, hle⟩

variable [Scalar κ α]

theorem computed_of_fresh_eq
    {u : Tape κ α}
    (h : t.fresh = u.fresh) :
    t.computed = u.computed := by
  rw [computed, computed, size_of_fresh_eq h, dimension_of_fresh_eq h]

variable [Exponent κ]

/-- The storage after the places `done`: their equations are solved. -/
structure ForwardInvariant (t : Tape κ α) (point : List α) (done : List Nat) (u : Tape κ α) :
    Prop where
  fresh : u.fresh = t.fresh
  adjoint : ∀ i, u.adjoint i = t.adjoint i
  loaded : ∀ i < t.dimension, point[i]? = some (u.value i)
  computed : ∀ i ∈ done, ∀ s, t.slots[i]? = some s →
    u.value i = t.result s.op s.fresh.value ((t.sourcesIn s.inputs).map u.value)

theorem ForwardInvariant.start
    (ht : t.Sound)
    (hp : point.length = t.dimension) :
    t.ForwardInvariant point [] (t.setPoint point) := by
  constructor
  · exact ht.fresh_setPoint hp
  · exact adjoint_setPoint t point
  · intro i hi
    have hx : point[i]? = some point[i] := List.getElem?_eq_getElem (by omega)
    have := ht.dimension_le
    rw [value_setPoint_lt t hx (by omega), hx]
  · simp

/-- What the next place of a forward sweep reads: its slot is that of the plan, so value and
partials come from the values that its operands hold. -/
theorem ForwardInvariant.read
    {done : List Nat} {u : Tape κ α} {i : Nat} {s : Slot κ α}
    (ht : t.Sound)
    (hreg : t.HandlesRegistered)
    (hu : t.ForwardInvariant point done u)
    (hs : t.slots[i]? = some s)
    (hi : t.dimension ≤ i) :
    ∃ x, x = t.result s.op s.fresh.value ((t.sourcesIn s.inputs).map u.value) ∧
      u.computedValue i = .ok x ∧
      u.computedPartials i =
        .ok (x, t.partials s.op ((t.sourcesIn s.inputs).map u.value) x) := by
  obtain ⟨r, hr, hop, hin, hconst⟩ := slot_of_fresh_eq hu.fresh.symm hs
  have hval : r.fresh.value = s.fresh.value := by
    simp only [Slot.fresh, hop]
    split
    · exact hconst ‹_›
    · rfl
  have hus := ht.of_fresh_eq hu.fresh.symm
  have hureg := hreg.of_fresh_eq hu.fresh.symm
  have hui : u.dimension ≤ i := by
    rw [dimension_of_fresh_eq hu.fresh]
    exact hi
  obtain ⟨x, hx, hpartials⟩ := computedPartials_eq_ok hus hureg hr hui
  rw [hop, hin, hval, sourcesIn_of_fresh_eq hu.fresh,
    result_congr (callbacks_of_fresh_eq hu.fresh)] at hx
  rw [hop, hin, sourcesIn_of_fresh_eq hu.fresh,
    partials_congr (callbacks_of_fresh_eq hu.fresh)] at hpartials
  exact ⟨x, hx, computedValue_of_computedPartials hpartials, hpartials⟩

/-- Writing the value of the next place solves its equation and no other is affected: the
places done before lie below it and read lower places still. -/
theorem ForwardInvariant.setValue
    {done : List Nat} {u : Tape κ α} {i : Nat} {s : Slot κ α} {x : α}
    (ht : t.Sound)
    (hu : t.ForwardInvariant point done u)
    (hdone : ∀ k ∈ done, k < i)
    (hs : t.slots[i]? = some s)
    (hi : t.dimension ≤ i)
    (hx : x = t.result s.op s.fresh.value ((t.sourcesIn s.inputs).map u.value))
    (hconst : ∀ r, u.slots[i]? = some r → r.op.isConst = true → x = r.value) :
    t.ForwardInvariant point (done ++ [i]) (u.setValue i x) := by
  have hsize : i < u.size := by
    rw [size_of_fresh_eq hu.fresh]
    exact (Array.getElem?_eq_some_iff.1 hs).1
  have hbelow : ∀ k ≤ i, ∀ r, t.slots[k]? = some r →
      (t.sourcesIn r.inputs).map (u.setValue i x).value =
        (t.sourcesIn r.inputs).map u.value := by
    intro k hk r hr
    refine (ht.slot hr).map_sources_congr ?_
    intro j hj
    exact value_setValue_ne u x (by omega)
  constructor
  · rw [fresh_setValue u hconst]
    exact hu.fresh
  · intro k
    rw [adjoint_setValue, hu.adjoint]
  · intro k hk
    rw [value_setValue_ne u x (by omega)]
    exact hu.loaded k hk
  · intro k hk r hr
    rw [List.mem_append, List.mem_singleton] at hk
    rcases hk with hk | rfl
    · have hki := hdone k hk
      rw [value_setValue_ne u x (by omega), hbelow k (by omega) r hr]
      exact hu.computed k hk r hr
    · obtain rfl : s = r := Option.some.inj (hs.symm.trans hr)
      rw [value_setValue_self u x hsize, hbelow k (Nat.le_refl k) s hs]
      exact hx

theorem ForwardInvariant.setWeights
    {done : List Nat} {u : Tape κ α}
    (hu : t.ForwardInvariant point done u)
    (start : Nat) (ws : List α) :
    t.ForwardInvariant point done (u.setWeights start ws) := by
  constructor
  · rw [fresh_setWeights]
    exact hu.fresh
  · intro i
    rw [adjoint_setWeights, hu.adjoint]
  · intro i hi
    rw [value_setWeights]
    exact hu.loaded i hi
  · intro i hi s hs
    rw [value_setWeights, hu.computed i hi s hs]
    congr 1
    exact List.map_congr_left fun j _ => (value_setWeights u start j ws).symm

theorem ForwardInvariant.valuation
    {u : Tape κ α}
    (hu : t.ForwardInvariant point t.computed u) :
    t.Valuation point u.value := by
  constructor
  · exact hu.loaded
  · intro i s hs hi
    have hlt := (Array.getElem?_eq_some_iff.1 hs).1
    exact hu.computed i (mem_computed.2 ⟨hi, by rw [size]; omega⟩) s hs

/-- A forward sweep of a sound tape solves the equations of the values. -/
theorem forward_spec
    (ht : t.Sound)
    (hreg : t.HandlesRegistered)
    (hp : point.length = t.dimension) :
    ∃ u, t.forward point = (.ok (), u) ∧ u.fresh = t.fresh ∧
      t.Valuation point u.value ∧ u.edges = t.edges ∧ ∀ i, u.adjoint i = t.adjoint i := by
  obtain ⟨u, hu, hinv, hedges⟩ : ∃ u,
      sweep computedValue setValue t.computed (t.setPoint point) = (.ok (), u) ∧
        t.ForwardInvariant point t.computed u ∧ u.edges = t.edges := by
    refine sweep_run (P := fun done u => t.ForwardInvariant point done u ∧ u.edges = t.edges)
      ⟨ForwardInvariant.start ht hp, rfl⟩ ?_
    rintro done i rest u hplaces ⟨hu, hedges⟩
    obtain ⟨s, hs, hi⟩ := exists_slot_of_computed_eq hplaces
    obtain ⟨x, hx, hread, -⟩ := hu.read ht hreg hs hi
    have hdone : ∀ k ∈ done, k < i := fun k hk => lt_of_range'_eq_append hplaces hk
    refine ⟨x, hread, hu.setValue ht hdone hs hi hx ?_, hedges⟩
    exact fun r hr hc => computedValue_const hread hr hc
  rw [forward_eq hp]
  exact ⟨u, hu, hinv.fresh, hinv.valuation, hedges, hinv.adjoint⟩

/-- The partials that a slot has at given values. -/
def partialsAt (t : Tape κ α) (v : Nat → α) (i : Nat) (s : Slot κ α) : List α :=
  t.partials s.op ((t.sourcesIn s.inputs).map v) (v i)

/-- The partials of a slot hang on values up to its own. -/
theorem partialsAt_congr
    {v w : Nat → α} {i : Nat} {s : Slot κ α}
    (ht : t.Sound)
    (hs : t.slots[i]? = some s)
    (h : ∀ j ≤ i, v j = w j) :
    t.partialsAt v i s = t.partialsAt w i s := by
  rw [partialsAt, partialsAt, h i (Nat.le_refl i)]
  rw [(ht.slot hs).map_sources_congr fun j hj => h j (Nat.le_of_lt hj)]

theorem length_partialsAt
    {i : Nat} {s : Slot κ α}
    (ht : t.Sound)
    (hreg : t.HandlesRegistered)
    (hs : t.slots[i]? = some s)
    (v : Nat → α) :
    (t.partialsAt v i s).length = s.inputs.stop - s.inputs.start := by
  have hover := (ht.slot hs).applied.map v
  rw [partialsAt, (opWeights_eq_ok _ (hreg s (Array.mem_of_getElem? hs)) hover).2, List.length_map,
    length_sourcesIn (ht.slot hs).window]

/-- The window of slot `k` shows edge `p`. -/
def Shows (t : Tape κ α) (k p : Nat) : Prop :=
  ∃ s, t.slots[k]? = some s ∧ s.inputs.start ≤ p ∧ p < s.inputs.stop

/-- Among the places `done`, slot `k` is the last that shows edge `p`. -/
structure LastToShow (t : Tape κ α) (done : List Nat) (k p : Nat) : Prop where
  mem : k ∈ done
  shows_edge : t.Shows k p
  last : ∀ j ∈ done, k < j → ¬ t.Shows j p

/-- In a tape of the plan of `t`, edge `p` holds the partial that slot `k` has for it. -/
def HoldsPartial (t u : Tape κ α) (k p : Nat) : Prop :=
  ∃ s e, t.slots[k]? = some s ∧ u.edges[p]? = some e ∧
    (t.partialsAt u.value k s)[p - s.inputs.start]? = some e.weight

/-- Writing value and weights of the next place solves its equation as well. -/
theorem ForwardInvariant.setPartials
    {done : List Nat} {u : Tape κ α} {i : Nat} {s : Slot κ α} {x : α}
    (ht : t.Sound)
    (hu : t.ForwardInvariant point done u)
    (hdone : ∀ k ∈ done, k < i)
    (hs : t.slots[i]? = some s)
    (hi : t.dimension ≤ i)
    (hx : x = t.result s.op s.fresh.value ((t.sourcesIn s.inputs).map u.value))
    (hconst : ∀ r, u.slots[i]? = some r → r.op.isConst = true → x = r.value)
    (ws : List α) :
    t.ForwardInvariant point (done ++ [i]) (u.setPartials i (x, ws)) := by
  obtain ⟨q, hq, -, hin, -⟩ := slot_of_fresh_eq hu.fresh.symm hs
  rw [setPartials_eq u hq, hin]
  refine (hu.setWeights s.inputs.start ws).setValue ht hdone hs hi ?_ ?_
  · refine hx.trans ?_
    congr 1
    exact List.map_congr_left fun j _ => (value_setWeights u _ j ws).symm
  · rw [slots_setWeights]
    exact hconst

/-- Once its value is written, the partials of a slot are those that were computed with it. -/
theorem partialsAt_setPartials
    {u : Tape κ α} {i : Nat} {s : Slot κ α}
    (ht : t.Sound)
    (hs : t.slots[i]? = some s)
    (hu : u.fresh = t.fresh)
    (x : α) (ws : List α) :
    t.partialsAt (u.setPartials i (x, ws)).value i s =
      t.partials s.op ((t.sourcesIn s.inputs).map u.value) x := by
  obtain ⟨q, hq, -⟩ := slot_of_fresh_eq hu.symm hs
  rw [partialsAt, value_setPartials_self u hq]
  rw [(ht.slot hs).map_sources_congr fun j hj => value_setPartials_ne u (x, ws) (Nat.ne_of_gt hj)]

/-- An edge that a slot does not show holds what it did for a slot before it. -/
theorem HoldsPartial.setPartials
    {u : Tape κ α} {i k p : Nat} {s : Slot κ α} {computed : α × List α}
    (ht : t.Sound)
    (h : t.HoldsPartial u k p)
    (hki : k < i)
    (hs : t.slots[i]? = some s)
    (hnot : ¬ t.Shows i p)
    (hu : u.fresh = t.fresh)
    (hlen : computed.2.length = s.inputs.stop - s.inputs.start) :
    t.HoldsPartial (u.setPartials i computed) k p := by
  obtain ⟨q, hq, -, hin, -⟩ := slot_of_fresh_eq hu.symm hs
  obtain ⟨r, e, hr, he, hweight⟩ := h
  refine ⟨r, e, hr, ?_, ?_⟩
  · rw [edges_setPartials u hq, hin, getElem?_edges_setWeights, he]
    by_contra hin
    exact hnot ⟨s, hs, by omega, by omega⟩
  · rwa [partialsAt_congr ht hr fun j hj => value_setPartials_ne u computed (by omega)]

/-- Writing its partials makes the edges of a slot hold them. -/
theorem holdsPartial_setPartials_self
    {u : Tape κ α} {i p : Nat} {s : Slot κ α} {x : α} {ws : List α}
    (ht : t.Sound)
    (hs : t.slots[i]? = some s)
    (hshow : t.Shows i p)
    (hu : u.fresh = t.fresh)
    (hws : t.partials s.op ((t.sourcesIn s.inputs).map u.value) x = ws)
    (hlen : ws.length = s.inputs.stop - s.inputs.start) :
    t.HoldsPartial (u.setPartials i (x, ws)) i p := by
  obtain ⟨q, hq, -, hin, -⟩ := slot_of_fresh_eq hu.symm hs
  obtain ⟨r, hr, hstart, hstop⟩ := hshow
  obtain rfl : s = r := Option.some.inj (hs.symm.trans hr)
  obtain ⟨n, rfl⟩ := Nat.exists_eq_add_of_le hstart
  have hn : ws[n]? = some ws[n] := List.getElem?_eq_getElem (by omega)
  have hwindow := (ht.slot hs).window
  rw [size_edges_of_fresh_eq hu.symm] at hwindow
  have he : u.edges[s.inputs.start + n]? = some u.edges[s.inputs.start + n] :=
    Array.getElem?_eq_getElem (by omega)
  refine ⟨s, { u.edges[s.inputs.start + n] with weight := ws[n] }, hs, ?_, ?_⟩
  · rw [edges_setPartials u hq, hin, getElem?_edges_setWeights_add u _ hn, he]
    rfl
  · rw [partialsAt_setPartials ht hs hu, hws, Nat.add_sub_cancel_left, hn]

/-- After the next place every edge holds the partial of the last place done that shows it. -/
theorem holdsPartial_step
    {done : List Nat} {u : Tape κ α} {i : Nat} {s : Slot κ α}
    (ht : t.Sound)
    (hreg : t.HandlesRegistered)
    (hholds : ∀ k p, t.LastToShow done k p → t.HoldsPartial u k p)
    (hdone : ∀ k ∈ done, k < i)
    (hs : t.slots[i]? = some s)
    (hu : u.fresh = t.fresh)
    (x : α)
    {k p : Nat}
    (h : t.LastToShow (done ++ [i]) k p) :
    t.HoldsPartial
      (u.setPartials i (x, t.partials s.op ((t.sourcesIn s.inputs).map u.value) x)) k p := by
  generalize hws : t.partials s.op ((t.sourcesIn s.inputs).map u.value) x = ws
  have hlen : ws.length = s.inputs.stop - s.inputs.start := by
    rw [← hws, ← partialsAt_setPartials ht hs hu x ws, length_partialsAt ht hreg hs]
  rcases List.mem_append.1 h.mem with hk | hk
  · have hlast : t.LastToShow done k p :=
      ⟨hk, h.shows_edge, fun j hj => h.last j (List.mem_append_left _ hj)⟩
    have hnot : ¬ t.Shows i p := h.last i (by simp) (hdone k hk)
    exact (hholds k p hlast).setPartials ht (hdone k hk) hs hnot hu hlen
  · obtain rfl : k = i := List.mem_singleton.1 hk
    exact holdsPartial_setPartials_self ht hs h.shows_edge hu hws hlen

/-- A forward sweep with weights solves the equations of the values as well, and then every edge
holds the partial of the last slot that shows it. -/
theorem forwardWithWeights_holds
    (ht : t.Sound)
    (hreg : t.HandlesRegistered)
    (hp : point.length = t.dimension) :
    ∃ u, t.forwardWithWeights point = (.ok (), u) ∧ u.fresh = t.fresh ∧
      t.Valuation point u.value ∧
      (∀ k p, t.LastToShow t.computed k p → t.HoldsPartial u k p) ∧
      ∀ i, u.adjoint i = t.adjoint i := by
  obtain ⟨u, hu, hinv, hholds⟩ : ∃ u,
      sweep computedPartials setPartials t.computed (t.setPoint point) = (.ok (), u) ∧
        t.ForwardInvariant point t.computed u ∧
        ∀ k p, t.LastToShow t.computed k p → t.HoldsPartial u k p := by
    refine sweep_run (P := fun done u => t.ForwardInvariant point done u ∧
      ∀ k p, t.LastToShow done k p → t.HoldsPartial u k p) ?_ ?_
    · exact ⟨ForwardInvariant.start ht hp, fun k p h => absurd h.mem (by simp)⟩
    · rintro done i rest u hplaces ⟨hu, hholds⟩
      obtain ⟨s, hs, hi⟩ := exists_slot_of_computed_eq hplaces
      obtain ⟨x, hx, hread, hpartials⟩ := hu.read ht hreg hs hi
      have hdone : ∀ k ∈ done, k < i := fun k hk => lt_of_range'_eq_append hplaces hk
      refine ⟨_, hpartials, ?_, ?_⟩
      · exact hu.setPartials ht hdone hs hi hx (fun r hr hc => computedValue_const hread hr hc) _
      · exact fun k p => holdsPartial_step ht hreg hholds hdone hs hu.fresh x
  rw [forwardWithWeights_eq hp]
  exact ⟨u, hu, hinv.fresh, hinv.valuation, hholds, hinv.adjoint⟩

/-- Where windows do not overlap, each shows the partials of its slot. -/
theorem weightsIn_of_holds
    {u : Tape κ α} {i : Nat} {s : Slot κ α}
    (ht : t.Sound)
    (hreg : t.HandlesRegistered)
    (htiled : t.Tiled)
    (hholds : ∀ k p, t.LastToShow t.computed k p → t.HoldsPartial u k p)
    (hs : t.slots[i]? = some s)
    (hi : t.dimension ≤ i) :
    u.weightsIn s.inputs = t.partialsAt u.value i s := by
  have hlen := length_partialsAt ht hreg hs u.value
  have hlt := lt_size_of_slot hs
  apply List.ext_getElem?
  intro n
  rw [weightsIn, List.getElem?_map, getElem?_edgeList]
  split
  · have hlast : t.LastToShow t.computed i (s.inputs.start + n) := by
      refine ⟨mem_computed.2 (by omega), ⟨s, hs, by omega, by omega⟩, ?_⟩
      rintro j - hij ⟨r, hr, hstart, -⟩
      have := htiled i j s r hij hs hr
      omega
    obtain ⟨r, e, hr, he, hweight⟩ := hholds i _ hlast
    obtain rfl : s = r := Option.some.inj (hs.symm.trans hr)
    rw [Nat.add_sub_cancel_left] at hweight
    rw [he, hweight]
    rfl
  · rw [List.getElem?_eq_none (by omega)]
    rfl

end Forward
end Tape
end ReverseMode
