import ReverseMode.Proofs.Tape.Adjoints

/-!
# Results and the storage they start from

Every call of a tape overwrites its storage.  What evaluating and differentiating return is
nevertheless a function of the plan and the point: each cell of the storage is written before it
is read.

**Argument.**  Two tapes of one plan run side by side.  `Agree` says what the places done so far
have made equal: the values of variables and of these places, and the edges in their windows.
This also holds where windows overlap, since both sides overwrite the same edges.

**Results.**
* `evaluate_of_fresh_eq`, `differentiate_of_fresh_eq`: two sound tapes of one plan return the
  same, faults included.
* `evaluate_of_differentiate`: evaluating returns the value that differentiating does.
-/

namespace ReverseMode
namespace Tape

variable {κ α : Type} [Scalar κ α]
variable {t u w : Tape κ α} {point : List α}

section Reads

variable [Exponent κ]

/-- What is stored in a slot that is neither variable nor constant is not looked at. -/
theorem opValue_stored
    {op : Op κ}
    (args : List α) (stored stored' : α)
    (hin : op.isInput = false)
    (hconst : op.isConst = true → stored = stored') :
    t.opValue op stored args = t.opValue op stored' args := by
  cases op with
  | input => cases hin
  | const => rw [hconst rfl]
  | _ => rfl

/-- An operation that has a value finds its function. -/
theorem registered_of_opValue
    {op : Op κ} {stored v : α} {args : List α}
    (h : t.opValue op stored args = .ok v) :
    op.RegisteredIn t.callbacks := by
  cases op with
  | unary n =>
      obtain ⟨f, hf, -⟩ := bind_eq_ok_iff.1 h
      exact (Array.getElem?_eq_some_iff.1 (unaryFn_eq_ok_iff.1 hf)).1
  | binary n =>
      obtain ⟨f, hf, -⟩ := bind_eq_ok_iff.1 h
      exact (Array.getElem?_eq_some_iff.1 (binaryFn_eq_ok_iff.1 hf)).1
  | nary n =>
      obtain ⟨f, hf, -⟩ := bind_eq_ok_iff.1 h
      exact (Array.getElem?_eq_some_iff.1 (naryFn_eq_ok_iff.1 hf)).1
  | _ => trivial

/-- Two tapes of one plan see the same in a slot when the values that it reads are the same. -/
theorem reads_congr
    {i : Nat} {s : Slot κ α}
    (ht : t.Sound)
    (h : t.fresh = u.fresh)
    (hs : t.slots[i]? = some s)
    (hi : t.dimension ≤ i)
    (hv : ∀ j ∈ t.sourcesIn s.inputs, t.value j = u.value j) :
    ∃ r, u.slots[i]? = some r ∧ r.op = s.op ∧ u.operandValues i = t.operandValues i ∧
      ∀ args, t.opValue s.op s.value args = u.opValue s.op r.value args := by
  obtain ⟨r, hr, hop, hin, hconst⟩ := slot_of_fresh_eq h hs
  refine ⟨r, hr, hop, ?_, ?_⟩
  · rw [operandValues_eq_ok ht hs, operandValues_eq_ok (ht.of_fresh_eq h) hr, hin,
      ← sourcesIn_of_fresh_eq h]
    exact congrArg Except.ok (List.map_congr_left fun j hj => (hv j hj).symm)
  · intro args
    have hinput : s.op.isInput = false := by
      rw [← Bool.not_eq_true, (ht.slot hs).input_iff]
      omega
    rw [opValue_stored args s.value r.value hinput fun hc => (hconst hc).symm]
    exact opValue_congr (callbacks_of_fresh_eq h) _ _ _

theorem computedValue_congr
    {i : Nat} {s : Slot κ α}
    (ht : t.Sound)
    (h : t.fresh = u.fresh)
    (hs : t.slots[i]? = some s)
    (hi : t.dimension ≤ i)
    (hv : ∀ j ∈ t.sourcesIn s.inputs, t.value j = u.value j) :
    t.computedValue i = u.computedValue i := by
  obtain ⟨r, hr, hop, hargs, hvalue⟩ := reads_congr ht h hs hi hv
  rw [computedValue, computedValue, slot_eq_ok hs, slot_eq_ok hr, ok_bind, ok_bind, hargs, hop]
  simp only [hvalue]

theorem computedPartials_congr
    {i : Nat} {s : Slot κ α}
    (ht : t.Sound)
    (h : t.fresh = u.fresh)
    (hs : t.slots[i]? = some s)
    (hi : t.dimension ≤ i)
    (hv : ∀ j ∈ t.sourcesIn s.inputs, t.value j = u.value j) :
    t.computedPartials i = u.computedPartials i := by
  obtain ⟨r, hr, hop, hargs, hvalue⟩ := reads_congr ht h hs hi hv
  rw [computedPartials, computedPartials, slot_eq_ok hs, slot_eq_ok hr, ok_bind, ok_bind, hargs,
    hop]
  simp only [hvalue, opWeights_congr (callbacks_of_fresh_eq h)]

/-- The partials of a slot are as many as its edges. -/
theorem length_of_computedPartials
    {i : Nat} {s : Slot κ α} {computed : α × List α}
    (ht : t.Sound)
    (hs : t.slots[i]? = some s)
    (h : t.computedPartials i = .ok computed) :
    computed.2.length = s.inputs.stop - s.inputs.start := by
  rw [computedPartials, slot_eq_ok hs, ok_bind, operandValues_eq_ok ht hs, ok_bind] at h
  obtain ⟨x, hx, h⟩ := bind_eq_ok_iff.1 h
  obtain ⟨ws, hws, h⟩ := bind_eq_ok_iff.1 h
  obtain rfl := Except.ok.inj h
  have hover := (ht.slot hs).applied.map t.value
  obtain ⟨hok, hlen⟩ := opWeights_eq_ok (t := t) x (registered_of_opValue hx) hover
  obtain rfl := Except.ok.inj (hok.symm.trans hws)
  rw [hlen, List.length_map, length_sourcesIn (ht.slot hs).window]

end Reads

section Agreement

/-- Two tapes of the plan of `t` after the places `done`: they agree on the values of variables
and of these places. -/
structure Agree (t : Tape κ α) (done : List Nat) (u w : Tape κ α) : Prop where
  left : u.fresh = t.fresh
  right : w.fresh = t.fresh
  value : ∀ i, i < t.dimension ∨ i ∈ done → u.value i = w.value i

/-- They also agree on the edges in the windows of these places. -/
def EdgesAgree (t : Tape κ α) (done : List Nat) (u w : Tape κ α) : Prop :=
  ∀ i ∈ done, ∀ s, t.slots[i]? = some s → ∀ p, s.inputs.start ≤ p → p < s.inputs.stop →
    u.edges[p]? = w.edges[p]?

theorem agree_setPoint
    (ht : t.Sound)
    (hu : u.fresh = t.fresh)
    (hw : w.fresh = t.fresh)
    (hp : point.length = t.dimension) :
    t.Agree [] (u.setPoint point) (w.setPoint point) := by
  have husound := ht.of_fresh_eq hu.symm
  have hwsound := ht.of_fresh_eq hw.symm
  constructor
  · rw [husound.fresh_setPoint (hp.trans (dimension_of_fresh_eq hu).symm), hu]
  · rw [hwsound.fresh_setPoint (hp.trans (dimension_of_fresh_eq hw).symm), hw]
  · intro i hi
    rcases hi with hi | hi
    · have hx : point[i]? = some point[i] := List.getElem?_eq_getElem (by omega)
      have hle := ht.dimension_le
      have husize := size_of_fresh_eq hu
      have hwsize := size_of_fresh_eq hw
      rw [value_setPoint_lt u hx (by omega), value_setPoint_lt w hx (by omega)]
    · simp at hi

theorem Agree.setValue
    {done : List Nat} {i : Nat} {x : α}
    (h : t.Agree done u w)
    (hi : i < t.size)
    (hu : ∀ s, u.slots[i]? = some s → s.op.isConst = true → x = s.value)
    (hw : ∀ s, w.slots[i]? = some s → s.op.isConst = true → x = s.value) :
    t.Agree (done ++ [i]) (u.setValue i x) (w.setValue i x) := by
  constructor
  · rw [fresh_setValue u hu, h.left]
  · rw [fresh_setValue w hw, h.right]
  · intro j hj
    have husize := size_of_fresh_eq h.left
    have hwsize := size_of_fresh_eq h.right
    by_cases hij : i = j
    · subst hij
      rw [value_setValue_self u x (by omega), value_setValue_self w x (by omega)]
    · rw [value_setValue_ne u x hij, value_setValue_ne w x hij]
      apply h.value
      rcases hj with hj | hj
      · exact .inl hj
      · rw [List.mem_append, List.mem_singleton] at hj
        rcases hj with hj | rfl
        · exact .inr hj
        · exact absurd rfl hij

theorem Agree.setWeights
    {done : List Nat}
    (h : t.Agree done u w)
    (start : Nat) (ws : List α) :
    t.Agree done (u.setWeights start ws) (w.setWeights start ws) := by
  constructor
  · rw [fresh_setWeights, h.left]
  · rw [fresh_setWeights, h.right]
  · intro i hi
    rw [value_setWeights, value_setWeights]
    exact h.value i hi

/-- An edge that agrees or is written on both sides agrees afterwards. -/
theorem edge_setWeights_congr
    {start p : Nat} {ws : List α}
    (h : u.fresh = w.fresh)
    (hp : u.edges[p]? = w.edges[p]? ∨ start ≤ p ∧ p < start + ws.length) :
    (u.setWeights start ws).edges[p]? = (w.setWeights start ws).edges[p]? := by
  by_cases hout : p < start ∨ start + ws.length ≤ p
  · rw [getElem?_edges_setWeights u hout, getElem?_edges_setWeights w hout]
    exact hp.resolve_right (by omega)
  obtain ⟨k, rfl⟩ : ∃ k, p = start + k := ⟨p - start, by omega⟩
  have hk : ws[k]? = some ws[k] := List.getElem?_eq_getElem (by omega)
  rw [getElem?_edges_setWeights_add u start hk, getElem?_edges_setWeights_add w start hk]
  -- The two edges name one source, and the weight is written.
  have hsrc := congrArg (fun es : Array Nat => es[start + k]?) (map_source_of_fresh_eq h)
  simp only [Array.getElem?_map] at hsrc
  have hmap : ∀ e? : Option (Edge α), e?.map (fun e => { e with weight := ws[k] }) =
      (e?.map (·.source)).map fun source => { source, weight := ws[k] } := by
    intro e?
    cases e? <;> rfl
  rw [hmap, hmap, hsrc]

/-- Windows that agree show the same links. -/
theorem EdgesAgree.links_eq
    (hedges : t.EdgesAgree t.computed u w)
    (hu : u.fresh = t.fresh)
    (hw : w.fresh = t.fresh) :
    ∀ j ∈ t.computed, u.links j = w.links j := by
  intro j hj
  obtain ⟨s, hs⟩ := exists_slot (t := t) (i := j) (by
    have := mem_computed.1 hj
    omega)
  obtain ⟨q, hq, -, hqin, -⟩ := slot_of_fresh_eq hu.symm hs
  obtain ⟨r, hr, -, hrin, -⟩ := slot_of_fresh_eq hw.symm hs
  rw [links_of_slot hq, links_of_slot hr, hqin, hrin]
  congr 1
  apply List.ext_getElem?
  intro k
  rw [getElem?_edgeList, getElem?_edgeList]
  split
  · exact hedges j hj s hs _ (by omega) (by omega)
  · rfl

variable [Exponent κ]

/-- The next place reads variables and places done, so it reads the same on both sides. -/
theorem Agree.read
    {done rest : List Nat} {i : Nat}
    (h : t.Agree done u w)
    (ht : t.Sound)
    (hplaces : t.computed = done ++ i :: rest) :
    u.computedValue i = w.computedValue i ∧ u.computedPartials i = w.computedPartials i := by
  obtain ⟨s, hs, hi⟩ := exists_slot_of_computed_eq hplaces
  obtain ⟨q, hq, -, hin, -⟩ := slot_of_fresh_eq h.left.symm hs
  have hfresh := h.left.trans h.right.symm
  have husound := ht.of_fresh_eq h.left.symm
  have hui : u.dimension ≤ i := by
    rw [dimension_of_fresh_eq h.left]
    exact hi
  suffices hv : ∀ j ∈ u.sourcesIn q.inputs, u.value j = w.value j from
    ⟨computedValue_congr husound hfresh hq hui hv,
      computedPartials_congr husound hfresh hq hui hv⟩
  intro j hj
  rw [hin, sourcesIn_of_fresh_eq h.left] at hj
  apply h.value
  by_cases hd : j < t.dimension
  · exact .inl hd
  · right
    have hji := (ht.slot hs).earlier j hj
    have hsize := lt_size_of_slot hs
    have hmem : j ∈ done ++ i :: rest := by
      rw [← hplaces, mem_computed]
      omega
    -- The places are in slot order, so `j` is not among those still to come.
    have hsorted := List.pairwise_lt_range' (s := t.dimension) (n := t.size - t.dimension)
    rw [← computed, hplaces, List.pairwise_append, List.pairwise_cons] at hsorted
    rw [List.mem_append, List.mem_cons] at hmem
    rcases hmem with hmem | rfl | hmem
    · exact hmem
    · omega
    · have := hsorted.2.1.1 j hmem
      omega

/-- Writing the partials of the next place makes it agree: its whole window is written. -/
theorem Agree.setPartials
    {done : List Nat} {i : Nat} {computed : α × List α}
    (h : t.Agree done u w)
    (hedges : t.EdgesAgree done u w)
    (ht : t.Sound)
    (hi : i < t.size)
    (hu : u.computedPartials i = .ok computed)
    (hw : w.computedPartials i = .ok computed) :
    t.Agree (done ++ [i]) (u.setPartials i computed) (w.setPartials i computed) ∧
      t.EdgesAgree (done ++ [i]) (u.setPartials i computed) (w.setPartials i computed) := by
  obtain ⟨s, hs⟩ := exists_slot hi
  obtain ⟨q, hq, -, hqin, -⟩ := slot_of_fresh_eq h.left.symm hs
  obtain ⟨r, hr, -, hrin, -⟩ := slot_of_fresh_eq h.right.symm hs
  have hlen := length_of_computedPartials (ht.of_fresh_eq h.left.symm) hq hu
  rw [hqin] at hlen
  rw [setPartials_eq u hq, setPartials_eq w hr, hqin, hrin]
  constructor
  · apply (h.setWeights s.inputs.start computed.2).setValue hi
    · rw [slots_setWeights]
      exact fun _ => computedValue_const (computedValue_of_computedPartials hu)
    · rw [slots_setWeights]
      exact fun _ => computedValue_const (computedValue_of_computedPartials hw)
  · intro k hk s' hs' p hstart hstop
    rw [edges_setValue, edges_setValue]
    apply edge_setWeights_congr (h.left.trans h.right.symm)
    rw [List.mem_append, List.mem_singleton] at hk
    rcases hk with hk | rfl
    · exact .inl (hedges k hk s' hs' p hstart hstop)
    · obtain rfl : s = s' := Option.some.inj (hs.symm.trans hs')
      right
      omega

end Agreement

section Runs

theorem Agree.outputValue_eq
    (h : t.Agree t.computed u w) :
    u.outputValue = w.outputValue := by
  have husize := size_of_fresh_eq h.left
  have hwsize := size_of_fresh_eq h.right
  have hempty : u.isEmpty = w.isEmpty := by
    have hsize : u.size = w.size := husize.trans hwsize.symm
    exact congrArg (fun n => decide (n = 0)) hsize
  rw [outputValue, outputValue, outputIndex, outputIndex, hempty, husize, hwsize]
  split
  · rfl
  · rw [ok_bind, ok_bind, valueAt_eq, valueAt_eq, husize, hwsize]
    split
    · rw [h.value (t.size - 1) (by rw [mem_computed]; omega)]
    · rfl

/-- Reverse sweeps of two tapes of one plan that agree give the same gradient. -/
theorem Agree.reverse
    {v w : Tape κ α}
    (h : t.Agree t.computed v w)
    (hedges : t.EdgesAgree t.computed v w)
    (ht : t.Sound) :
    ∃ v' w', v.reverse = (.ok (), v') ∧ w.reverse = (.ok (), w') ∧
      t.Agree t.computed v' w' ∧ v'.gradient = w'.gradient := by
  have hvsound := ht.of_fresh_eq h.left.symm
  have hwsound := ht.of_fresh_eq h.right.symm
  obtain ⟨v', hv', hvfresh, -, hvvalue, hvadj⟩ := reverse_spec hvsound
  obtain ⟨w', hw', hwfresh, -, hwvalue, hwadj⟩ := reverse_spec hwsound
  have hagree : t.Agree t.computed v' w' := by
    constructor
    · exact hvfresh.trans h.left
    · exact hwfresh.trans h.right
    · intro i hi
      rw [hvvalue, hwvalue]
      exact h.value i hi
  refine ⟨v', w', hv', hw', hagree, ?_⟩
  have hlinks := hedges.links_eq h.left h.right
  have hwadj := (hwadj.of_fresh_eq h.right).of_links_eq fun j hj => (hlinks j hj).symm
  have hunique := fun i hi => Adjoints.unique (i := i) (fun j l => lt_of_mem_links hvsound)
    (hvadj.of_fresh_eq h.left) hwadj hi
  have hvdim := dimension_of_fresh_eq hagree.left
  have hwdim := dimension_of_fresh_eq hagree.right
  have hvsize := size_of_fresh_eq hagree.left
  have hwsize := size_of_fresh_eq hagree.right
  have hle := ht.dimension_le
  rw [gradient_eq (by omega), gradient_eq (by omega), hvdim, hwdim]
  apply List.map_congr_left
  intro i hi
  exact hunique i (by have := List.mem_range.1 hi; omega)

/-- A reverse sweep on one side succeeds and leaves the values. -/
theorem Agree.exists_reverse
    {done : List Nat}
    (h : t.Agree done u w)
    (ht : t.Sound) :
    ∃ w', w.reverse = (.ok (), w') ∧ t.Agree done u w' := by
  obtain ⟨w', hw', hfresh, -, hvalue, -⟩ := reverse_spec (ht.of_fresh_eq h.right.symm)
  refine ⟨w', hw', h.left, hfresh.trans h.right, fun i hi => ?_⟩
  rw [hvalue]
  exact h.value i hi

variable [Exponent κ]

/-- Forward sweeps of two tapes of one plan end alike. -/
theorem forward_agree
    (ht : t.Sound)
    (h : u.fresh = t.fresh)
    (hp : point.length = t.dimension) :
    (t.forward point).1 = (u.forward point).1 ∧
      ((t.forward point).1 = .ok () →
        t.Agree t.computed (t.forward point).2 (u.forward point).2) := by
  rw [forward_eq hp, forward_eq (hp.trans (dimension_of_fresh_eq h).symm),
    computed_of_fresh_eq h]
  refine sweep_agree (R := t.Agree) (agree_setPoint ht rfl h hp) ?_
  intro done i rest v w hplaces hvw
  obtain ⟨s, hs, -⟩ := exists_slot_of_computed_eq hplaces
  have hread := (hvw.read ht hplaces).1
  refine ⟨hread, fun x hx => ?_⟩
  refine hvw.setValue (lt_size_of_slot hs) ?_ ?_
  · exact fun _ => computedValue_const hx
  · exact fun _ => computedValue_const (hread ▸ hx)

theorem forwardWithWeights_agree
    (ht : t.Sound)
    (h : u.fresh = t.fresh)
    (hp : point.length = t.dimension) :
    (t.forwardWithWeights point).1 = (u.forwardWithWeights point).1 ∧
      ((t.forwardWithWeights point).1 = .ok () →
        t.Agree t.computed (t.forwardWithWeights point).2 (u.forwardWithWeights point).2 ∧
          t.EdgesAgree t.computed (t.forwardWithWeights point).2
            (u.forwardWithWeights point).2) := by
  rw [forwardWithWeights_eq hp,
    forwardWithWeights_eq (hp.trans (dimension_of_fresh_eq h).symm), computed_of_fresh_eq h]
  refine sweep_agree (R := fun done v w => t.Agree done v w ∧ t.EdgesAgree done v w) ?_ ?_
  · exact ⟨agree_setPoint ht rfl h hp, by simp [EdgesAgree]⟩
  · rintro done i rest v w hplaces ⟨hvw, hedges⟩
    obtain ⟨s, hs, -⟩ := exists_slot_of_computed_eq hplaces
    have hread := (hvw.read ht hplaces).2
    exact ⟨hread, fun x hx => hvw.setPartials hedges ht (lt_size_of_slot hs) hx (hread ▸ hx)⟩

/-- Evaluating shows nothing of the storage it starts from. -/
theorem evaluate_of_fresh_eq
    (ht : t.Sound)
    (h : u.fresh = t.fresh)
    (point : List α) :
    (t.evaluate point).1 = (u.evaluate point).1 := by
  by_cases hp : point.length = t.dimension
  · obtain ⟨hout, hstate⟩ := forward_agree ht h hp
    rw [evaluate, evaluate]
    rcases htf : t.forward point with ⟨o, v⟩
    rcases huf : u.forward point with ⟨o', w⟩
    rw [htf, huf] at hout hstate
    obtain rfl : o = o' := hout
    cases o with
    | error e => rfl
    | ok x => exact (hstate rfl).outputValue_eq
  · rw [evaluate, evaluate, forward_of_length_ne hp,
      forward_of_length_ne (dimension_of_fresh_eq h ▸ hp)]

/-- Differentiating shows nothing of the storage it starts from. -/
theorem differentiate_of_fresh_eq
    (ht : t.Sound)
    (h : u.fresh = t.fresh)
    (point : List α) (room : Nat) :
    (t.differentiate point room).1 = (u.differentiate point room).1 := by
  rw [differentiate, differentiate, dimension_of_fresh_eq h]
  by_cases hroom : room = t.dimension
  · rw [if_pos hroom, if_pos hroom]
    by_cases hp : point.length = t.dimension
    · obtain ⟨hout, hstate⟩ := forwardWithWeights_agree ht h hp
      rcases htf : t.forwardWithWeights point with ⟨o, v⟩
      rcases huf : u.forwardWithWeights point with ⟨o', w⟩
      rw [htf, huf] at hout hstate
      obtain rfl : o = o' := hout
      cases o with
      | error e => rfl
      | ok x =>
          obtain ⟨hagree, hedges⟩ := hstate rfl
          obtain ⟨v', w', hv', hw', hagree', hgrad⟩ := hagree.reverse hedges ht
          simp only [hv', hw', hagree'.outputValue_eq, hgrad]
    · rw [forwardWithWeights_of_length_ne hp,
        forwardWithWeights_of_length_ne (dimension_of_fresh_eq h ▸ hp)]
  · rw [if_neg hroom, if_neg hroom]

/-- Where a sweep that writes weights succeeds, so does one that leaves them alone, with the same
values. -/
theorem forward_of_forwardWithWeights
    (ht : t.Sound)
    (hp : point.length = t.dimension)
    (h : t.forwardWithWeights point = (.ok (), w)) :
    ∃ u, t.forward point = (.ok (), u) ∧ t.Agree t.computed u w := by
  rw [forwardWithWeights_eq hp] at h
  rw [forward_eq hp]
  refine sweep_follow (R := t.Agree) (agree_setPoint ht rfl rfl hp) ?_ h
  intro done i rest v w computed hplaces hvw hw
  obtain ⟨s, hs, -⟩ := exists_slot_of_computed_eq hplaces
  have hvalue := (hvw.read ht hplaces).1
  have hw' := computedValue_of_computedPartials hw
  refine ⟨computed.1, hvalue.trans hw', ?_⟩
  obtain ⟨r, hr, -, -, -⟩ := slot_of_fresh_eq hvw.right.symm hs
  rw [setPartials_eq w hr]
  have hweights : t.Agree done v (w.setWeights r.inputs.start computed.2) := by
    constructor
    · exact hvw.left
    · rw [fresh_setWeights, hvw.right]
    · intro j hj
      rw [value_setWeights]
      exact hvw.value j hj
  refine hweights.setValue (lt_size_of_slot hs) ?_ ?_
  · exact fun _ => computedValue_const (hvalue.trans hw')
  · rw [slots_setWeights]
    exact fun _ => computedValue_const hw'

/-- Where a sweep that writes weights succeeds, evaluating and differentiating return the same
value, if any. -/
theorem evaluate_eq_of_forwardWithWeights
    (ht : t.Sound)
    (hp : point.length = t.dimension)
    (h : t.forwardWithWeights point = (.ok (), w)) :
    (t.evaluate point).1 = (t.differentiate point t.dimension).1.map Prod.fst := by
  obtain ⟨u, hu, hagree⟩ := forward_of_forwardWithWeights ht hp h
  obtain ⟨w', hw', hagree'⟩ := hagree.exists_reverse ht
  rw [evaluate, hu, differentiate, if_pos rfl, h]
  simp only [hw', hagree'.outputValue_eq]
  cases w'.outputValue <;> rfl

/-- Evaluating returns the value that differentiating returns. -/
theorem evaluate_of_differentiate
    {room : Nat} {x : α} {gradient : List α}
    (ht : t.Sound)
    (h : (t.differentiate point room).1 = .ok (x, gradient)) :
    (t.evaluate point).1 = .ok x := by
  have hroom : room = t.dimension := by
    by_contra hne
    rw [differentiate, if_neg hne] at h
    cases h
  subst hroom
  suffices hsweep : ∃ w, t.forwardWithWeights point = (.ok (), w) ∧ point.length = t.dimension by
    obtain ⟨w, hw, hp⟩ := hsweep
    rw [evaluate_eq_of_forwardWithWeights ht hp hw, h]
    rfl
  rw [differentiate, if_pos rfl] at h
  by_cases hp : point.length = t.dimension
  · rcases hw : t.forwardWithWeights point with ⟨_ | _, w⟩
    · rw [hw] at h
      cases h
    · exact ⟨w, rfl, hp⟩
  · rw [forwardWithWeights_of_length_ne hp] at h
    cases h

end Runs
end Tape
end ReverseMode
