import ReverseMode.Proofs.Program.Forward
import ReverseMode.Proofs.Tape.Adjoints

/-!
# The derivative routine of a program

A tape scatters: each slot passes its adjoint back along its edges.  Its program gathers: for
each slot it collects what the slots that read it pass back.

**Argument.**  The places that read a slot, in the order of the code, are the edges along which a
reverse sweep passes back to it, in the order of the sweep.  Consumers come after what they read,
so an adjoint is complete before it is passed on.  A sum passes it on without a factor; where a
factor 1 changes nothing, this is what the sweep does.

**Results.**
* `Of.runDerivatives_spec`: the derivative routine gathers the adjoints of every slot that is
  not a constant.
* `gathered_iff`: gathered adjoints solve equations like those of the tape, but for the factors of
  sums.
* `eq_of_gathered`: where a factor 1 changes nothing, they solve the equations of the tape.
-/

namespace ReverseMode

variable {κ α : Type} [Scalar κ α]

/-- What an operation passes back to an operand in which it has the partial `w`, when its adjoint is
`d`: a sum the adjoint as it is. -/
def Op.passBack (op : Op κ) (d w : α) : α :=
  match op with
  | .sum => d
  | _ => d * w

theorem Op.passBack_of_isCallback
    {op : Op κ}
    (h : op.isCallback = true)
    (d w : α) :
    op.passBack d w = d * w := by
  cases op with
  | unary | binary | nary => rfl
  | _ => cases h

variable [Exponent κ]

/-- Where a factor 1 changes nothing, a sum passes back its adjoint times a partial too. -/
theorem Op.passBack_of_mul_one
    {t : Tape κ α} {op : Op κ} {args : List α} {r w : α}
    (hmul : ∀ x : α, x * 1 = x)
    (hw : w ∈ t.partials op args r)
    (d : α) :
    op.passBack d w = d * w := by
  cases op with
  | sum =>
      have hw : w ∈ args.map fun _ => (1 : α) := hw
      obtain ⟨x, -, rfl⟩ := List.mem_map.1 hw
      exact (hmul d).symm
  | _ => rfl

namespace Program

variable {t : Tape κ α} {r : Registers α} {v : Nat → α}

section Accumulations

/-- An accumulation passes back what the operation of its consumer does. -/
theorem amount_of_factorOf
    {consumer target start k : Nat} {op : Op κ} {as : List Nat} {f : Factor κ} {d w : α}
    (hf : FactorOf consumer start op as k f)
    (hd : r.diffs[consumer]? = some d)
    (hv : Holds r v (consumer :: as))
    (hw : (t.partials op (as.map v) (v consumer))[k]? = some w)
    (hcached : op.isCallback = true → r.partials[start + k]? = some w) :
    ({ target, consumer, position := k, factor := f : Accumulation κ }.amount r :
      Except (Fault κ) α) = .ok (op.passBack d w) := by
  have hdiff : (r.diff consumer : Except (Fault κ) α) = .ok d := Registers.diff_eq_ok hd
  have hval : ∀ a ∈ consumer :: as, (r.value a : Except (Fault κ) α) = .ok (v a) :=
    fun a ha => Registers.value_eq_ok (hv a ha)
  rw [Accumulation.amount, hdiff, ok_bind]
  cases hf with
  | sum as k => rfl
  | left a b =>
      obtain rfl : v b = w := Option.some.inj hw
      simp only [hval b (by simp), ok_bind, pure_eq_ok, Op.passBack]
  | right a b =>
      obtain rfl : v a = w := Option.some.inj hw
      simp only [hval a (by simp), ok_bind, pure_eq_ok, Op.passBack]
  | power a k =>
      obtain rfl : Scalar.constPowerPartial (v a) k = w := Option.some.inj hw
      simp only [hval a (by simp), ok_bind, pure_eq_ok, Op.passBack]
  | base a b =>
      obtain rfl : (Scalar.powPartials (v a) (v b) (v consumer)).1 = w := Option.some.inj hw
      simp only [hval a (by simp), hval b (by simp), hval consumer (by simp), ok_bind,
        pure_eq_ok, Op.passBack]
  | exponent a b =>
      obtain rfl : (Scalar.powPartials (v a) (v b) (v consumer)).2 = w := Option.some.inj hw
      simp only [hval a (by simp), hval b (by simp), hval consumer (by simp), ok_bind,
        pure_eq_ok, Op.passBack]
  | exp a =>
      obtain rfl : v consumer = w := Option.some.inj hw
      simp only [hval consumer (by simp), ok_bind, pure_eq_ok, Op.passBack]
  | ln a =>
      obtain rfl : Scalar.recip (v a) = w := Option.some.inj hw
      simp only [hval a (by simp), ok_bind, pure_eq_ok, Op.passBack]
  | cached as k hcb =>
      have hcell : (r.cachedPartial (start + k) : Except (Fault κ) α) = .ok w :=
        Registers.cachedPartial_eq_ok (hcached hcb)
      simp only [hcell, ok_bind, pure_eq_ok, Op.passBack_of_isCallback hcb]

/-- The adjoint that a set of registers has for a slot. -/
def diffIn (r : Registers α) (i : Nat) : α :=
  r.diffs[i]?.getD 0

omit [Exponent κ] in
theorem getElem?_diffs
    {i : Nat}
    (h : i < r.diffs.size) :
    r.diffs[i]? = some (diffIn r i) := by
  simp [diffIn, h]

/-- The partial of an operand place at given values. -/
def weightOf (t : Tape κ α) (v : Nat → α) (q : Reading) : α :=
  ((t.slots[q.consumer]?.map (t.partialsAt v q.consumer)).getD [])[q.position]?.getD 0

/-- What the consumer of an operand place passes back there, when adjoints are `d`. -/
def returned (t : Tape κ α) (v d : Nat → α) (q : Reading) : α :=
  (t.slots[q.consumer]?.map fun s =>
    s.op.passBack (d q.consumer) (weightOf t v q)).getD 0

theorem returned_congr
    {d d' : Nat → α} {q : Reading}
    (h : d q.consumer = d' q.consumer) :
    returned t v d q = returned t v d' q := by
  rw [returned, returned, h]

/-- Registers that an accumulation finds: all values are there, and so are the partials of the
slots that call functions. -/
structure Ready (t : Tape κ α) (v : Nat → α) (r : Registers α) : Prop where
  size : r.values.size = t.size
  values : ∀ i < t.size, r.values[i]? = some (v i)
  diffs : r.diffs.size = t.size
  cached : ∀ i s, t.slots[i]? = some s → s.op.isCallback = true → ∀ n w,
    (t.partialsAt v i s)[n]? = some w → r.partials[s.inputs.start + n]? = some w

theorem amount_of_mem_reads
    {q : Reading} (target : Nat)
    (ht : t.Sound)
    (hreg : t.HandlesRegistered)
    (hr : Ready t v r)
    (hq : q ∈ reads t) :
    ({ target, consumer := q.consumer, position := q.position, factor := factor t q :
      Accumulation κ }.amount r : Except (Fault κ) α) =
        .ok (returned t v (diffIn r) q) := by
  obtain ⟨s, hs, hsrc⟩ := mem_reads.1 hq
  have hsize := Tape.lt_size_of_slot hs
  have hpos : q.position < (t.partialsAt v q.consumer s).length := by
    rw [length_partialsAt ht hreg hs]
    exact (List.getElem?_eq_some_iff.1 hsrc).1
  have hw : (t.partialsAt v q.consumer s)[q.position]? = some (weightOf t v q) := by
    simp [weightOf, hs, hpos]
  rw [returned, hs, Option.map_some, Option.getD_some]
  apply amount_of_factorOf (factorOf_spec ht hs hsrc).2
  · exact getElem?_diffs (by rw [hr.diffs]; exact hsize)
  · intro a ha
    rcases List.mem_cons.1 ha with rfl | ha
    · exact hr.values _ hsize
    · have := (ht.slot hs).earlier a ha
      exact hr.values a (by omega)
  · exact hw
  · exact fun hcb => hr.cached q.consumer s hs hcb _ _ hw

/-- The accumulations into one slot add to its adjoint what its consumers pass back, and to no
other.  Consumers come later, so what they pass back does not change meanwhile. -/
theorem sweepAccumulations_into
    {i : Nat}
    (ht : t.Sound)
    (hreg : t.HandlesRegistered)
    (hr : Ready t v r)
    (hi : i < t.size) :
    ∃ r', sweepAccumulations (accumulations t i) r = (.ok (), r') ∧ Ready t v r' ∧
      (∀ j, j ≠ i → diffIn r' j = diffIn r j) ∧
      diffIn r' i = ((accumulations t i).map fun a =>
        returned t v (diffIn r) ⟨a.consumer, a.position, i⟩).foldl (· + ·) (diffIn r i) := by
  refine sweep_run (P := fun (done : List (Accumulation κ)) r' => Ready t v r' ∧
    (∀ j, j ≠ i → diffIn r' j = diffIn r j) ∧
    diffIn r' i = (done.map fun a =>
      returned t v (diffIn r) ⟨a.consumer, a.position, i⟩).foldl (· + ·) (diffIn r i))
    ⟨hr, fun _ _ => rfl, rfl⟩ ?_
  rintro done a rest r' hplaces ⟨hready, hother, hsum⟩
  obtain ⟨q, hq, hsrc, htarget, hconsumer, hposition, hfactor⟩ :=
    mem_accumulations (t := t) (i := i) (a := a) (by simp [hplaces])
  have hlater := source_lt_of_mem_reads ht hq
  have hamount := amount_of_mem_reads a.target ht hreg hready hq
  have hreturned := returned_congr (t := t) (v := v) (hother q.consumer (by omega))
  have hplace : q = ⟨a.consumer, a.position, i⟩ := by rw [hconsumer, hposition, ← hsrc]
  rw [hreturned, ← hconsumer, ← hposition, ← hfactor, hplace] at hamount
  have hdiff := getElem?_diffs (r := r') (i := i) (by rw [hready.diffs]; exact hi)
  refine ⟨_, hamount, ?_, ?_, ?_⟩
  · constructor
    · exact hready.size
    · exact hready.values
    · rw [Registers.size_diffs_addDiff, hready.diffs]
    · exact hready.cached
  · intro j hj
    rw [diffIn, Registers.diffs_addDiff_ne r' _ (by omega)]
    exact hother j hj
  · rw [htarget, diffIn, Registers.diffs_addDiff_self r' hdiff, List.map_append,
      List.foldl_append, ← hsum]
    rfl

/-- The equation of an adjoint that is gathered from the places that read its slot. -/
def Gathered (t : Tape κ α) (v d : Nat → α) (i : Nat) : Prop :=
  d i = (((reads t).filter fun q => q.source = i).map (returned t v d)).foldl (· + ·) (t.seedAt i)

/-- The registers after the accumulations into the slots `done`. -/
structure GatherInvariant (t : Tape κ α) (v : Nat → α) (done : List Nat) (r : Registers α) :
    Prop where
  ready : Ready t v r
  seeded : ∀ i < t.size, i ∉ done → diffIn r i = t.seedAt i
  gathered : ∀ i ∈ done, ∀ s, t.slots[i]? = some s → s.op.isConst = false →
    Gathered t v (diffIn r) i

theorem GatherInvariant.step
    {done rest : List Nat} {i : Nat}
    (ht : t.Sound)
    (hreg : t.HandlesRegistered)
    (hplaces : (List.range t.size).reverse = done ++ i :: rest)
    (hr : GatherInvariant t v done r) :
    ∃ r', sweepAccumulations (accumulations t i) r = (.ok (), r') ∧
      GatherInvariant t v (done ++ [i]) r' := by
  rw [List.range_eq_range'] at hplaces
  have hdone : ∀ k ∈ done, i < k := fun k hk => lt_of_reverse_range'_eq_append hplaces hk
  have hi : i < t.size := by
    have hmem : i ∈ (List.range' 0 t.size).reverse := by simp [hplaces]
    rw [List.mem_reverse, List.mem_range'_1] at hmem
    omega
  have hnew : i ∉ done := fun h => Nat.lt_irrefl i (hdone i h)
  obtain ⟨r', hr', hready, hother, hsum⟩ := sweepAccumulations_into ht hreg hr.ready hi
  -- The consumers of a slot at or above `i` lie above `i`, so they pass back what they did.
  have hsame : ∀ k, i ≤ k →
      ((reads t).filter fun q => q.source = k).map (returned t v (diffIn r')) =
        ((reads t).filter fun q => q.source = k).map (returned t v (diffIn r)) := by
    intro k hk
    apply List.map_congr_left
    intro q hq
    obtain ⟨hq, hsrc⟩ := List.mem_filter.1 hq
    have hlater := source_lt_of_mem_reads ht hq
    have hsrc : q.source = k := of_decide_eq_true hsrc
    exact returned_congr (hother q.consumer (by omega))
  refine ⟨r', hr', hready, ?_, ?_⟩
  · intro j hj hjd
    rw [List.mem_append, List.mem_singleton, not_or] at hjd
    rw [hother j hjd.2]
    exact hr.seeded j hj hjd.1
  · intro k hk s hs hc
    rw [List.mem_append, List.mem_singleton] at hk
    rcases hk with hk | rfl
    · have hik := hdone k hk
      rw [Gathered, hsame k (by omega), hother k (by omega)]
      exact hr.gathered k hk s hs hc
    · have hsame := hsame k (Nat.le_refl k)
      rw [Gathered, hsame, hsum, hr.seeded k hi hnew, accumulations, hs]
      simp only [Option.map_some, Option.getD_some, hc, Bool.false_eq_true, if_false,
        List.map_map, Function.comp_def]
      rfl

end Accumulations

section Equations

omit [Exponent κ] in
/-- A list beside another of its length is the list with its places looked up there. -/
theorem zip_eq_map_zipIdx
    {as : List Nat} {ws : List α}
    (h : ws.length = as.length) :
    as.zip ws = as.zipIdx.map fun a => (a.1, ws[a.2]?.getD 0) := by
  apply List.ext_getElem
  · simp [h]
  · intro n h₁ h₂
    have hn : n < ws.length := by
      rw [List.length_zip] at h₁
      omega
    simp [hn]

/-- What slot `j` passes back to slot `i`, place by place, with what a sum passes back as it is. -/
def passed (t : Tape κ α) (v d : Nat → α) (i j : Nat) : List α :=
  (t.slots[j]?.map fun s =>
    ((t.sourcesIn s.inputs).zip (t.partialsAt v j s)).filterMap fun l =>
      if l.1 = i then some (s.op.passBack (d j) l.2) else none).getD []

theorem passed_of_slot
    {d : Nat → α} {i j : Nat} {s : Slot κ α}
    (hs : t.slots[j]? = some s) :
    passed t v d i j = ((t.sourcesIn s.inputs).zip (t.partialsAt v j s)).filterMap fun l =>
      if l.1 = i then some (s.op.passBack (d j) l.2) else none := by
  simp [passed, hs]

/-- What the places of one consumer contribute is what this slot passes back. -/
theorem contributions_of_consumer
    (ht : t.Sound)
    (hreg : t.HandlesRegistered)
    (d : Nat → α) (i j : Nat) :
    ((readsOf t j).filter fun q => q.source = i).map (returned t v d) = passed t v d i j := by
  cases hs : t.slots[j]? with
  | none => simp [readsOf, passed, hs]
  | some s =>
      have hlen := length_partialsAt (v := v) ht hreg hs
      rw [passed_of_slot hs, zip_eq_map_zipIdx hlen, readsOf, hs, Option.map_some,
        Option.getD_some, List.filterMap_map]
      generalize (t.sourcesIn s.inputs).zipIdx = places
      induction places with
      | nil => rfl
      | cons a places ih =>
          rw [List.map_cons, List.filterMap_cons]
          by_cases ha : a.1 = i
          · rw [List.filter_cons_of_pos (by simpa using ha), List.map_cons, ih]
            simp [returned, weightOf, hs, ha]
          · rw [List.filter_cons_of_neg (by simpa using ha), ih]
            simp [ha]

/-- Variables read nothing, so they pass nothing back. -/
theorem passed_eq_nil
    (ht : t.Sound)
    {d : Nat → α} {i j : Nat}
    (hj : j < t.dimension) :
    passed t v d i j = [] := by
  have hle := ht.dimension_le
  obtain ⟨s, hs⟩ := Tape.exists_slot (t := t) (i := j) (by omega)
  rw [passed_of_slot hs, Tape.sourcesIn_eq_nil ht hs hj, List.zip_nil_left, List.filterMap_nil]

/-- Gathering from the places that read a slot adds up what later slots pass back there, in the
order of a reverse sweep. -/
theorem gathered_iff
    (ht : t.Sound)
    (hreg : t.HandlesRegistered)
    {d : Nat → α} {i : Nat} :
    Gathered t v d i ↔
      d i = (t.computed.reverse.flatMap (passed t v d i)).foldl (· + ·) (t.seedAt i) := by
  have hreads : ((reads t).filter fun q => q.source = i).map (returned t v d) =
      t.computed.reverse.flatMap (passed t v d i) := by
    rw [reads, List.filter_flatMap, List.map_flatMap]
    simp only [contributions_of_consumer ht hreg]
    rw [ht.range_size, List.reverse_append, List.flatMap_append]
    have hnil : (List.range t.dimension).reverse.flatMap (passed t v d i) = [] := by
      rw [List.flatMap_eq_nil_iff]
      intro j hj
      rw [List.mem_reverse, List.mem_range] at hj
      exact passed_eq_nil ht hj
    rw [hnil, List.append_nil]
  rw [Gathered, hreads]

/-- Where a factor 1 changes nothing, a slot passes back what it does in a reverse sweep. -/
theorem passed_of_mul_one
    (hmul : ∀ x : α, x * 1 = x)
    (d : Nat → α) (i j : Nat) :
    passed t v d i j = Tape.passed (t.linksAt v) d i j := by
  cases hs : t.slots[j]? with
  | none => simp [passed, Tape.passed, Tape.linksAt, hs]
  | some s =>
      rw [passed_of_slot hs, Tape.passed, Tape.linksAt_of_slot hs]
      apply List.filterMap_congr
      intro l hl
      rw [Op.passBack_of_mul_one hmul (List.of_mem_zip hl).2]

/-- Where a factor 1 changes nothing, gathered adjoints solve the equations of the tape.  A slot
that passes something back has operands, so the constants, which gather nothing, do not matter. -/
theorem eq_of_gathered
    {a d : Nat → α}
    (hmul : ∀ x : α, x * 1 = x)
    (ht : t.Sound)
    (hreg : t.HandlesRegistered)
    (ha : t.Adjoints (t.linksAt v) a)
    (hd : ∀ i s, t.slots[i]? = some s → s.op.isConst = false → Gathered t v d i)
    {i : Nat} {s : Slot κ α}
    (hs : t.slots[i]? = some s)
    (hc : s.op.isConst = false) :
    a i = d i := by
  refine ha.eq_of_solved (P := fun j => ∀ r, t.slots[j]? = some r → r.op.isConst = false)
    ?_ ?_ (Tape.lt_size_of_slot hs) ?_
  · intro j l hl
    refine ⟨Tape.lt_of_mem_linksAt ht hl, fun r hr => ?_⟩
    rw [Tape.linksAt_of_slot hr] at hl
    have hover := (ht.slot hr).applied
    generalize t.sourcesIn r.inputs = as at hover hl
    cases hop : r.op with
    | const =>
        rw [hop] at hover
        cases hover
        cases hl
    | _ => rfl
  · intro j hj hP
    obtain ⟨r, hr⟩ := Tape.exists_slot hj
    have hgathered := (gathered_iff ht hreg).1 (hd j r hr (hP r hr))
    rwa [funext (passed_of_mul_one hmul d j)] at hgathered
  · intro r hr
    obtain rfl : s = r := Option.some.inj (hs.symm.trans hr)
    exact hc

/-- The derivative routine ends without a fault, and gathers the adjoints of all slots but
constants. -/
theorem Of.runDerivatives_spec
    {p : Program κ α}
    (ht : t.Sound)
    (hreg : t.HandlesRegistered)
    (hcalls : t.CallsApart)
    (hp : Of t p)
    (hv : ∀ i < t.size, p.registers.values[i]? = some (v i)) :
    ∃ q, p.runDerivatives = (.ok (), q) ∧ q.dimension = p.dimension ∧ Ready t v q.registers ∧
      ∀ i s, t.slots[i]? = some s → s.op.isConst = false →
        Gathered t v (diffIn q.registers) i := by
  have hfit := fit_seed hp.registers
  obtain ⟨r, hr, hvalues, hdiffs, hcached⟩ := sweepPartials_spec ht hreg hcalls
    (partialsCode_of_partialsRoutine ht hp.partialsCode) hfit.partials hv
  have hseeded : GatherInvariant t v [] r := by
    constructor
    · constructor
      · rw [hvalues]
        exact hfit.values
      · rw [hvalues]
        exact hv
      · rw [hdiffs]
        exact hfit.diffs
      · exact hcached
    · intro i hi _
      have hsize := hp.registers.diffs
      rw [diffIn, hdiffs, Registers.diffs_seed _ (by omega), hsize]
      rfl
    · simp
  obtain ⟨r', hr', hinv⟩ : ∃ r',
      sweepAccumulations ((List.range t.size).reverse.flatMap (accumulations t)) r =
        (.ok (), r') ∧ GatherInvariant t v (List.range t.size).reverse r' :=
    sweep_flatMap_run hseeded fun done i rest r hplaces hinv => hinv.step ht hreg hplaces
  have hsweep : sweepAccumulations p.accumulationCode r = (.ok (), r') := by
    rw [hp.accumulationCode_eq_flatMap ht]
    exact hr'
  refine ⟨{ p with registers := r' }, ?_, rfl, hinv.ready, ?_⟩
  · rw [runDerivatives_of_ok hr, hsweep]
  · intro i s hs hc
    refine hinv.gathered i ?_ s hs hc
    rw [List.mem_reverse, List.mem_range]
    exact Tape.lt_size_of_slot hs

end Equations

end Program
end ReverseMode
