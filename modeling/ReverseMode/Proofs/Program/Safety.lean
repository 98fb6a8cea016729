import ReverseMode.Proofs.Program.History

/-!
# Safe programs

`Program.Safe` says of each routine of a program that every instruction finds the registers that it
reads and writes to registers that there are.

**Argument.**  An instruction names slots and edges of the tape that the program was made from, and
running a program keeps the sizes of its registers.  So it is enough to look at each instruction
once, with registers of these sizes.

**Results.**
* `Of.safe`: a program of a sound tape is safe, used or not.
-/

namespace ReverseMode

variable {κ α : Type}

namespace Program

variable [Exponent κ] [Scalar κ α]

section Defs

/-- There is a register for the value. -/
def ValueFits (r : Registers α) (k : ValueInstruction κ α) (_ : α) : Prop :=
  k.target < r.values.size

/-- There is room in the cache for all partials. -/
def PartialsFit (r : Registers α) (k : PartialsInstruction α) (ws : List α) : Prop :=
  k.first + ws.length ≤ r.partials.size

/-- There is a register for the adjoint. -/
def AmountFits (r : Registers α) (a : Accumulation κ) (_ : α) : Prop :=
  a.target < r.diffs.size

/-- A program whose routines neither fail nor write past their registers.  The derivative routine
runs after the value routine. -/
structure Safe (p : Program κ α) : Prop where
  /-- The variables have registers, to which points are written. -/
  dimension_le_values : p.dimension ≤ p.registers.values.size
  /-- The variables have adjoints, from which gradients are read. -/
  dimension_le_diffs : p.dimension ≤ p.registers.diffs.size
  values : ∀ point, point.length = p.dimension →
    SafeSweep (fun r k => k.compute.run r) (fun r k v => r.setValue k.target v) ValueFits
      p.valueCode (p.registers.setPoint point)
  partials : ∀ point, point.length = p.dimension →
    SafeSweep (ε := Fault κ) (fun r k => k.call.run r) (fun r k ws => r.setPartials k.first ws)
      PartialsFit p.partialsCode (p.runValues point).2.registers.seed
  accumulations : ∀ point r, point.length = p.dimension →
    sweepPartials (κ := κ) p.partialsCode (p.runValues point).2.registers.seed = (.ok (), r) →
      SafeSweep (fun r a => a.amount r) (fun r a d => r.addDiff a.target d) AmountFits
        p.accumulationCode r
  evaluate : ∀ point, point.length = p.dimension → ∃ x, (p.evaluate point).1 = .ok x
  differentiate : ∀ point, point.length = p.dimension →
    ∃ x gradient, (p.differentiate point p.dimension).1 = .ok (x, gradient) ∧
      gradient.length = p.dimension

end Defs

section Routines

variable {t : Tape κ α} {r : Registers α}

omit [Exponent κ] in
/-- The slots that a factor reads are operands of the consumer or the consumer itself. -/
theorem FactorOf.operands
    {start k : Nat} {op : Op κ} {as : List Nat} {a : Accumulation κ}
    (h : FactorOf a.consumer start op as k a.factor) :
    ∀ s ∈ a.operands, s ∈ as ∨ s = a.consumer := by
  rw [Accumulation.operands]
  generalize a.factor = f at h ⊢
  cases h <;> simp

theorem safe_values
    {code : List (ValueInstruction κ α)}
    (ht : t.Sound)
    (hcode : ValueCode t code)
    (hr : r.Fit t) :
    SafeSweep (fun r k => k.compute.run r) (fun r k v => r.setValue k.target v) ValueFits code
      r := by
  refine safeSweep_of_invariant (P := fun r => r.Fit t) hr ?_
  intro k hk r hr
  obtain ⟨s, hs, -, hcompute⟩ := hcode.mem k hk
  obtain ⟨s', hs', hconst⟩ := hcode.target hk
  have htarget := Tape.lt_size_of_slot hs
  have hoperands : ∀ j ∈ k.compute.operands, j < r.values.size := by
    intro j hj
    rw [operands_of_computeOf (ht.slot hs).applied hcompute] at hj
    have := (ht.slot hs).earlier j hj
    have := hr.values
    omega
  obtain ⟨v, hv⟩ := k.compute.exists_run hoperands
  refine ⟨v, hv, ?_, fit_setValue hr hs' hconst v⟩
  rw [ValueFits, hr.values]
  exact htarget

omit [Exponent κ] in
theorem safe_partials
    {code : List (PartialsInstruction α)}
    (ht : t.Sound)
    (hcode : PartialsCode t code)
    (hr : r.Fit t) :
    SafeSweep (ε := Fault κ) (fun r k => k.call.run r) (fun r k ws => r.setPartials k.first ws)
      PartialsFit code r := by
  refine safeSweep_of_invariant (P := fun r => r.Fit t) hr ?_
  intro k hk r hr
  obtain ⟨s, hs, hfirst, hcall⟩ := hcode.mem k hk
  have hoperands : ∀ j ∈ k.call.operands, j < r.values.size := by
    intro j hj
    rw [hcall.operands_eq] at hj
    have := (ht.slot hs).earlier j hj
    have := Tape.lt_size_of_slot hs
    have := hr.values
    omega
  obtain ⟨ws, hws⟩ := k.call.exists_run (κ := κ) hoperands
  refine ⟨ws, hws, ?_, fit_setPartials hr k.first ws⟩
  have hwindow := (ht.slot hs).window
  have hle := Tape.start_le_stop s.inputs
  have hlen := length_of_call hcall hws
  rw [Tape.length_sourcesIn hwindow] at hlen
  rw [PartialsFit, hr.partials]
  omega

theorem safe_accumulations
    {code : List (Accumulation κ)}
    (ht : t.Sound)
    (hcode : ∀ a ∈ code, ∃ i, a ∈ accumulations t i)
    (hr : r.Fit t) :
    SafeSweep (fun r a => a.amount r) (fun r a d => r.addDiff a.target d) AmountFits code r := by
  refine safeSweep_of_invariant (P := fun r => r.Fit t) hr ?_
  intro a ha r hr
  obtain ⟨i, ha⟩ := hcode a ha
  obtain ⟨q, hq, hsource, htarget, hconsumer, -, hfactor⟩ := mem_accumulations ha
  obtain ⟨hlt, hsize⟩ := source_lt_of_mem_reads ht hq
  obtain ⟨s, hs, hsrc⟩ := mem_reads.1 hq
  have hspec := (factorOf_spec ht hs hsrc).2
  rw [← hfactor, ← hconsumer] at hspec
  have hwindow := (ht.slot hs).window
  have hvalues : ∀ j ∈ a.operands, j < r.values.size := by
    intro j hj
    rw [hr.values]
    rcases hspec.operands j hj with hj | rfl
    · exact Nat.lt_trans ((ht.slot hs).earlier j hj) hsize
    · rw [hconsumer]
      exact hsize
  have hcached : ∀ e, a.factor = .cached e → e < r.partials.size := by
    intro e he
    rw [he] at hspec
    obtain ⟨-, rfl⟩ := hspec.of_cached
    have hposition := (List.getElem?_eq_some_iff.1 hsrc).1
    rw [Tape.length_sourcesIn hwindow] at hposition
    rw [hr.partials]
    omega
  obtain ⟨d, hd⟩ := a.exists_amount (by rw [hconsumer, hr.diffs]; exact hsize) hvalues hcached
  refine ⟨d, hd, ?_, fit_addDiff hr a.target d⟩
  rw [AmountFits, hr.diffs]
  omega

end Routines

section Results

variable {t : Tape κ α} {p : Program κ α}

theorem Of.runValues_eq_ok
    {point : List α}
    (ht : t.Sound)
    (hp : Of t p)
    (hlen : point.length = p.dimension) :
    (p.runValues point).1 = .ok () := by
  rw [runValues_eq hlen]
  exact (safe_values ht (valueCode_of_valueRoutine ht hp.valueCode)
    (fit_setPoint ht hp.registers (hlen.trans hp.dimension))).sweep_eq_ok

theorem Of.runDerivatives_eq_ok
    (ht : t.Sound)
    (hp : Of t p) :
    p.runDerivatives.1 = .ok () := by
  have hsafe := safe_partials ht (partialsCode_of_partialsRoutine ht hp.partialsCode)
    (fit_seed hp.registers)
  obtain ⟨r, hr⟩ : ∃ r,
      sweepPartials (κ := κ) p.partialsCode p.registers.seed = (.ok (), r) :=
    ⟨_, Prod.ext hsafe.sweep_eq_ok rfl⟩
  rw [runDerivatives_of_ok hr]
  have hfit : r.Fit t := by
    simpa only [hr] using fit_sweepPartials (κ := κ) (fit_seed hp.registers) p.partialsCode
  exact (safe_accumulations ht (hp.mem_accumulationCode ht) hfit).sweep_eq_ok

/-- A program of a sound tape is safe, whatever its registers hold. -/
theorem Of.safe
    (ht : t.Sound)
    (hp : Of t p) :
    p.Safe := by
  have hle := ht.dimension_le
  have hdim := hp.dimension
  constructor
  · have := hp.registers.values
    omega
  · have := hp.registers.diffs
    omega
  · intro point hlen
    exact safe_values ht (valueCode_of_valueRoutine ht hp.valueCode)
      (fit_setPoint ht hp.registers (hlen.trans hdim))
  · intro point hlen
    have hq := hp.runValues ht point
    rw [(hq.code_eq hp).2.2.1]
    exact safe_partials ht (partialsCode_of_partialsRoutine ht hq.partialsCode)
      (fit_seed hq.registers)
  · intro point r hlen hr
    have hq := hp.runValues ht point
    have hfit : r.Fit t := by
      simpa only [hr] using fit_sweepPartials (κ := κ) (fit_seed hq.registers) p.partialsCode
    exact safe_accumulations ht (hp.mem_accumulationCode ht) hfit
  · intro point hlen
    obtain ⟨q, hq⟩ : ∃ q, p.runValues point = (.ok (), q) :=
      ⟨_, Prod.ext (hp.runValues_eq_ok ht hlen) rfl⟩
    rw [Program.evaluate, hq]
    exact ⟨_, rfl⟩
  · intro point hlen
    obtain ⟨q, hq⟩ : ∃ q, p.runValues point = (.ok (), q) :=
      ⟨_, Prod.ext (hp.runValues_eq_ok ht hlen) rfl⟩
    have hof : Of t q := by simpa only [hq] using hp.runValues ht point
    obtain ⟨w, hw⟩ : ∃ w, q.runDerivatives = (.ok (), w) :=
      ⟨_, Prod.ext (hof.runDerivatives_eq_ok ht) rfl⟩
    have hof' : Of t w := by simpa only [hw] using hof.runDerivatives
    refine ⟨w.outputValue, w.gradient, ?_, ?_⟩
    · simp only [Program.differentiate, if_pos, hq, hw]
    · have hdiffs := hof'.registers.diffs
      have hwdim := hof'.dimension
      simp only [gradient, Array.length_toList, Array.size_extract]
      omega

end Results
end Program
end ReverseMode
