import ReverseMode.Proofs.Program.Renumber
import ReverseMode.Proofs.Program.Safety

/-!
# Programs whose variables come in another order

**Input.**  The programs of a tape and of one that it is renumbered into.

**Argument.**  Both programs run the same instructions with other numbers, and in the same order up
to the accumulations into computed slots, which come first.  The accumulations into variables come
in another order, but none of them reads what another one writes: the adjoint of a variable is the
sum of what its own accumulations pass back.  A variable that the first tape does not have gets
nothing.

**Results.**
* `sweepAccumulations_variables`: what accumulates into the variables, as sums.
* `Of.evaluate_of_renumbered`, `Of.differentiate_of_renumbered`: at points that are renumbered
  alike, both programs return the same value, and gradients that are renumbered alike.
-/

namespace ReverseMode

variable {κ α : Type} {n m : Nat}

namespace Program

variable {σ : Renumbering n m} {t u : Tape κ α}

section Code

/-- The accumulations into the variables. -/
def variableCode (t : Tape κ α) : List (Accumulation κ) :=
  (List.range t.dimension).reverse.flatMap (accumulations t)

theorem mem_variableCode
    {a : Accumulation κ} :
    a ∈ variableCode t ↔ a.target < t.dimension ∧ a ∈ accumulations t a.target := by
  rw [variableCode, List.mem_flatMap]
  constructor
  · rintro ⟨i, hi, ha⟩
    obtain ⟨-, -, -, rfl, -⟩ := mem_accumulations ha
    exact ⟨List.mem_range.1 (List.mem_reverse.1 hi), ha⟩
  · rintro ⟨hlt, ha⟩
    exact ⟨a.target, List.mem_reverse.2 (List.mem_range.2 hlt), ha⟩

/-- Those into one variable are the accumulations of its slot. -/
theorem filter_variableCode
    {i : Nat}
    (hi : i < t.dimension) :
    (variableCode t).filter (fun a => a.target = i) = accumulations t i := by
  have htarget : ∀ k, ∀ a ∈ accumulations t k, a.target = k := by
    intro k a ha
    obtain ⟨-, -, -, hk, -⟩ := mem_accumulations ha
    exact hk
  rw [variableCode, List.filter_flatMap]
  generalize t.dimension = m at hi
  induction m with
  | zero => exact absurd hi (Nat.not_lt_zero i)
  | succ m ih =>
      rw [List.range_succ, List.reverse_append, List.reverse_singleton, List.singleton_append,
        List.flatMap_cons]
      by_cases him : i = m
      · have hself : (accumulations t m).filter (fun a => a.target = i) = accumulations t m :=
          List.filter_eq_self.2 fun a ha => decide_eq_true ((htarget m a ha).trans him.symm)
        have hrest : (List.range m).reverse.flatMap
            (fun k => (accumulations t k).filter fun a => a.target = i) = [] := by
          rw [List.flatMap_eq_nil_iff]
          intro k hk
          rw [List.mem_reverse, List.mem_range] at hk
          refine List.filter_eq_nil_iff.2 fun a ha => ?_
          have := htarget k a ha
          simp only [decide_eq_true_eq]
          omega
        rw [hself, hrest, List.append_nil, him]
      · have hnone : (accumulations t m).filter (fun a => a.target = i) = [] := by
          refine List.filter_eq_nil_iff.2 fun a ha => ?_
          have := htarget m a ha
          simp only [decide_eq_true_eq]
          omega
        rw [hnone, List.nil_append]
        exact ih (by omega)

theorem filter_variableCode_eq_nil
    {i : Nat}
    (hi : t.dimension ≤ i) :
    (variableCode t).filter (fun a => a.target = i) = [] := by
  refine List.filter_eq_nil_iff.2 fun a ha => ?_
  have hlt := (mem_variableCode.1 ha).1
  simp only [decide_eq_true_eq]
  omega

/-- What accumulates into a variable accumulates into its new number. -/
theorem filter_variableCode_of_renumbered
    (ht : t.Sound)
    (hu : u.Sound)
    (h : Tape.Renumbered σ t u)
    (i : Nat) :
    (variableCode u).filter (fun a => a.target = σ i) =
      ((variableCode t).filter fun a => a.target = i).map (Accumulation.renumber σ) := by
  have hdim := h.dimension
  have hdim' := h.dimension'
  by_cases hi : i < n
  · have hσ := σ.lt_inputs_iff.2 hi
    rw [filter_variableCode (by omega), filter_variableCode (by omega),
      accumulations_of_renumbered ht hu h]
  · have hσ := σ.shifted i (by omega)
    rw [filter_variableCode_eq_nil (by omega), filter_variableCode_eq_nil (by omega),
      List.map_nil]

end Code

section Variables

variable [Exponent κ] [Scalar κ α] {r q : Registers α}

/-- What an accumulation passes back, where its registers are there. -/
def amountIn (r : Registers α) (a : Accumulation κ) : α :=
  (a.amount r : Except (Fault κ) α).toOption.getD 0

/-- The registers after the accumulations `done`, if each of these passes back what it would pass
back at the start. -/
structure SummedInvariant (r : Registers α) (done : List (Accumulation κ)) (r' : Registers α) :
    Prop where
  values : r'.values = r.values
  partials : r'.partials = r.partials
  size_diffs : r'.diffs.size = r.diffs.size
  diffs : ∀ i, r'.diffs[i]? = r.diffs[i]?.map fun d =>
    ((done.filter fun a => a.target = i).map (amountIn r)).foldl (· + ·) d

theorem SummedInvariant.start (r : Registers α) :
    SummedInvariant r ([] : List (Accumulation κ)) r := by
  refine ⟨rfl, rfl, rfl, fun i => ?_⟩
  simp

/-- An accumulation reads no adjoint that the ones before it have written. -/
theorem SummedInvariant.step
    {done : List (Accumulation κ)} {a : Accumulation κ} {r' : Registers α}
    (h : SummedInvariant r done r')
    (hamount : (a.amount r : Except (Fault κ) α) = .ok (amountIn r a))
    (hnew : ∀ b ∈ done, b.target ≠ a.consumer) :
    (a.amount r' : Except (Fault κ) α) = .ok (amountIn r a) ∧
      SummedInvariant r (done ++ [a]) (r'.addDiff a.target (amountIn r a)) := by
  constructor
  · have hnone : done.filter (fun b => b.target = a.consumer) = [] := by
      rw [List.filter_eq_nil_iff]
      exact fun b hb => by simpa using hnew b hb
    rw [← hamount]
    apply Accumulation.amount_congr
    · rw [h.diffs, hnone]
      simp
    · exact fun s _ => by rw [h.values]
    · exact fun e _ => by rw [h.partials]
  · refine ⟨h.values, h.partials, by simpa using h.size_diffs, fun i => ?_⟩
    by_cases hi : a.target = i
    · rw [Registers.addDiff, Array.getElem?_modify, if_pos hi, h.diffs, List.filter_append,
        List.filter_cons_of_pos (by simpa using hi), List.filter_nil, List.map_append,
        Option.map_map]
      simp only [Function.comp_def, List.foldl_append]
      rfl
    · rw [Registers.diffs_addDiff_ne r' _ hi, h.diffs, List.filter_append,
        List.filter_cons_of_neg (by simpa using hi), List.filter_nil, List.append_nil]

/-- What accumulates into a variable is summed to its adjoint. -/
theorem sweepAccumulations_variables
    (ht : t.Sound)
    (hr : r.Fit t) :
    ∃ r', sweepAccumulations (variableCode t) r = (.ok (), r') ∧
      SummedInvariant r (variableCode t) r' := by
  refine sweep_run (SummedInvariant.start r) ?_
  rintro done a rest r' hcode hinv
  have hmem : ∀ b ∈ done ++ a :: rest, b.target < t.dimension ∧ b ∈ accumulations t b.target := by
    intro b hb
    exact mem_variableCode.1 (hcode ▸ hb)
  obtain ⟨-, ha⟩ := hmem a (by simp)
  have hsafe : SafeSweep (fun r (a : Accumulation κ) => a.amount r)
      (fun r a d => r.addDiff a.target d) AmountFits [a] r :=
    safe_accumulations ht (fun b hb => ⟨a.target, by rwa [List.mem_singleton.1 hb]⟩) hr
  obtain ⟨d, hd, -, -⟩ := hsafe
  have hamount : (a.amount r : Except (Fault κ) α) = .ok (amountIn r a) := by
    have hd : (a.amount r : Except (Fault κ) α) = .ok d := hd
    rw [amountIn, hd]
    rfl
  refine ⟨_, hinv.step hamount fun b hb => ?_⟩
  have hlt := (hmem b (by simp [hb])).1
  -- Consumers are computed slots.
  obtain ⟨q, hq, -, -, hconsumer, -⟩ := mem_accumulations ha
  have hcomputed := Tape.mem_computed.1 (consumer_mem_computed ht hq)
  omega

/-- Sums that start from renumbered registers end in such. -/
theorem SummedInvariant.renumbered
    {q' r' : Registers α}
    (ht : t.Sound)
    (hu : u.Sound)
    (h : Tape.Renumbered σ t u)
    (hrq : Registers.Renumbered σ r q)
    (hr : SummedInvariant r (variableCode t) r')
    (hq : SummedInvariant q (variableCode u) q') :
    Registers.Renumbered σ r' q' := by
  constructor
  · rw [hq.values, hr.values]
    exact hrq.size_values
  · rw [hq.values, hr.values]
    exact hrq.values
  · rw [hq.size_diffs, hr.size_diffs]
    exact hrq.size_diffs
  · intro i
    have hamount : amountIn q ∘ Accumulation.renumber (κ := κ) σ = amountIn r := by
      funext a
      rw [Function.comp_apply, amountIn, amountIn, hrq.amount]
    rw [hq.diffs, hr.diffs, hrq.diffs, filter_variableCode_of_renumbered ht hu h, List.map_map,
      hamount]
  · rw [hq.partials, hr.partials, hrq.partials]

/-- Nothing is accumulated into the variables that the first tape does not have. -/
theorem SummedInvariant.idle
    {q' : Registers α}
    (ht : t.Sound)
    (hu : u.Sound)
    (h : Tape.Renumbered σ t u)
    (hidle : Registers.Idle σ q)
    (hq : SummedInvariant q (variableCode u) q') :
    Registers.Idle σ q' := by
  intro j d hj hd
  have hnone : (variableCode u).filter (fun a => a.target = j) = [] := by
    by_cases hlt : j < u.dimension
    · rw [filter_variableCode hlt, accumulations_eq_nil ht hu h hj]
    · exact filter_variableCode_eq_nil (by omega)
  rw [hq.diffs, hnone] at hd
  exact hidle j d hj (by simpa using hd)

end Variables

variable [Exponent κ] [Scalar κ α]

section Runs

variable {r q : Registers α}

theorem sweepValues_of_renumbered
    (h : Registers.Renumbered σ r q)
    (code : List (ValueInstruction κ α)) :
    (sweepValues (code.map (ValueInstruction.renumber σ)) q).1 = (sweepValues code r).1 ∧
      Registers.Renumbered σ (sweepValues code r).2
        (sweepValues (code.map (ValueInstruction.renumber σ)) q).2 := by
  refine sweep_mirror (ValueInstruction.renumber σ) id h ?_
  intro k _ r q h
  refine ⟨?_, fun v _ => h.setValue k.target v⟩
  rw [Except.map_id]
  exact h.run_compute k.compute

omit [Exponent κ] in
theorem sweepPartials_of_renumbered
    (h : Registers.Renumbered σ r q)
    (code : List (PartialsInstruction α)) :
    (sweepPartials (κ := κ) (code.map (PartialsInstruction.renumber σ)) q).1 =
        (sweepPartials code r).1 ∧
      Registers.Renumbered σ (sweepPartials (κ := κ) code r).2
        (sweepPartials (κ := κ) (code.map (PartialsInstruction.renumber σ)) q).2 := by
  refine sweep_mirror (PartialsInstruction.renumber σ) id h ?_
  intro k _ r q h
  refine ⟨?_, fun ws _ => h.setPartials k.first ws⟩
  rw [Except.map_id]
  exact h.run_call k.call

omit [Exponent κ] in
/-- Opening calls write no adjoints. -/
theorem diffs_sweepPartials (code : List (PartialsInstruction α)) (r : Registers α) :
    (sweepPartials (κ := κ) code r).2.diffs = r.diffs :=
  sweep_preserves (P := fun r' : Registers α => r'.diffs = r.diffs) rfl fun _ _ _ _ h _ => h

/-- Accumulations in one order. -/
theorem sweepAccumulations_of_renumbered
    (h : Registers.Renumbered σ r q)
    (hidle : Registers.Idle σ q)
    (code : List (Accumulation κ)) :
    (sweepAccumulations (code.map (Accumulation.renumber σ)) q).1 =
        (sweepAccumulations code r).1 ∧
      Registers.Renumbered σ (sweepAccumulations code r).2
        (sweepAccumulations (code.map (Accumulation.renumber σ)) q).2 ∧
      Registers.Idle σ (sweepAccumulations (code.map (Accumulation.renumber σ)) q).2 := by
  refine sweep_mirror (R := fun r q => Registers.Renumbered σ r q ∧ Registers.Idle σ q)
    (Accumulation.renumber σ) id ⟨h, hidle⟩ ?_
  rintro a - r q ⟨h, hidle⟩
  refine ⟨?_, fun d _ => ⟨h.addDiff a.target d, hidle.addDiff a.target d⟩⟩
  rw [Except.map_id]
  exact h.amount a

omit [Scalar κ α] in
/-- The accumulations of a program: those into computed slots come first. -/
theorem Of.accumulationCode_eq
    {p : Program κ α}
    (ht : t.Sound)
    (hp : Of t p) :
    p.accumulationCode = t.computed.reverse.flatMap (accumulations t) ++ variableCode t := by
  rw [hp.accumulationCode_eq_flatMap ht, ht.range_size, List.reverse_append, List.flatMap_append]
  rfl

/-- A program that accumulates succeeds. -/
theorem exists_sweepAccumulations
    {code : List (Accumulation κ)}
    (ht : t.Sound)
    (hcode : ∀ a ∈ code, ∃ i, a ∈ accumulations t i)
    (hr : r.Fit t) :
    ∃ r', sweepAccumulations code r = (.ok (), r') ∧ r'.Fit t := by
  refine ⟨_, Prod.ext (safe_accumulations ht hcode hr).sweep_eq_ok rfl, ?_⟩
  exact sweep_preserves (P := fun r : Registers α => r.Fit t) hr
    fun a _ r d hr _ => fit_addDiff hr a.target d

/-- The accumulations of both programs lead to renumbered registers. -/
theorem Of.sweepAccumulations_of_renumbered
    {p p' : Program κ α}
    (ht : t.Sound)
    (hu : u.Sound)
    (h : Tape.Renumbered σ t u)
    (hp : Of t p)
    (hp' : Of u p')
    (hr : r.Fit t)
    (hq : q.Fit u)
    (hrq : Registers.Renumbered σ r q)
    (hidle : Registers.Idle σ q) :
    ∃ r' q', sweepAccumulations p.accumulationCode r = (.ok (), r') ∧
      sweepAccumulations p'.accumulationCode q = (.ok (), q') ∧
      Registers.Renumbered σ r' q' ∧ Registers.Idle σ q' := by
  have hcode : u.computed.reverse.flatMap (accumulations u) =
      (t.computed.reverse.flatMap (accumulations t)).map (Accumulation.renumber σ) := by
    rw [h.computed, ← List.map_reverse, List.flatMap_map, List.map_flatMap]
    simp only [accumulations_of_renumbered ht hu h]
  have hmem : ∀ t : Tape κ α, ∀ a ∈ t.computed.reverse.flatMap (accumulations t),
      ∃ i, a ∈ accumulations t i := by
    intro t a ha
    obtain ⟨i, -, ha⟩ := List.mem_flatMap.1 ha
    exact ⟨i, ha⟩
  obtain ⟨r₁, hr₁, hfit⟩ := exists_sweepAccumulations ht (hmem t) hr
  obtain ⟨q₁, hq₁, hfit'⟩ := exists_sweepAccumulations hu (hmem u) hq
  obtain ⟨-, hmid, hidle⟩ := Program.sweepAccumulations_of_renumbered hrq hidle
    (t.computed.reverse.flatMap (accumulations t))
  rw [← hcode, hq₁] at hmid hidle
  rw [hr₁] at hmid
  obtain ⟨r₂, hr₂, hsum⟩ := sweepAccumulations_variables ht hfit
  obtain ⟨q₂, hq₂, hsum'⟩ := sweepAccumulations_variables hu hfit'
  refine ⟨r₂, q₂, ?_, ?_, hsum.renumbered ht hu h hmid hsum', hsum'.idle ht hu h hidle⟩
  · rw [hp.accumulationCode_eq ht]
    exact (sweep_append _ hr₁).trans hr₂
  · rw [hp'.accumulationCode_eq hu]
    exact (sweep_append _ hq₁).trans hq₂

end Runs

section Results

variable {p q : Program κ α} {point point' : List α}

theorem Of.runValues_of_renumbered
    (ht : t.Sound)
    (hu : u.Sound)
    (h : Tape.Renumbered σ t u)
    (hp : Of t p)
    (hq : Of u q)
    (hregisters : Registers.Renumbered σ p.registers q.registers)
    (hpoint : σ.Moves point point') :
    ∃ p' q', p.runValues point = (.ok (), p') ∧ q.runValues point' = (.ok (), q') ∧
      Of t p' ∧ Of u q' ∧ Registers.Renumbered σ p'.registers q'.registers := by
  have hlen : point.length = p.dimension := by
    rw [hp.dimension, h.dimension, hpoint.length]
  have hlen' : point'.length = q.dimension := by
    rw [hq.dimension, h.dimension', hpoint.length']
  have hcode : q.valueCode = p.valueCode.map (ValueInstruction.renumber σ) := by
    have hroutine := valueRoutine_of_renumbered ht hu h
    rw [hp.valueCode, hq.valueCode, map_ok] at hroutine
    exact Except.ok.inj hroutine
  have hle : n ≤ p.registers.values.size := by
    rw [hp.registers.values]
    exact h.le_size
  obtain ⟨-, hafter⟩ := sweepValues_of_renumbered (hregisters.setPoint hle hpoint) p.valueCode
  refine ⟨_, _, Prod.ext (hp.runValues_eq_ok ht hlen) rfl,
    Prod.ext (hq.runValues_eq_ok hu hlen') rfl, hp.runValues ht point, hq.runValues hu point', ?_⟩
  rw [runValues_eq hlen, runValues_eq hlen', hcode]
  exact hafter

theorem Of.runDerivatives_of_renumbered
    (ht : t.Sound)
    (hu : u.Sound)
    (h : Tape.Renumbered σ t u)
    (hlt : n < t.size)
    (hp : Of t p)
    (hq : Of u q)
    (hregisters : Registers.Renumbered σ p.registers q.registers) :
    ∃ p' q', p.runDerivatives = (.ok (), p') ∧ q.runDerivatives = (.ok (), q') ∧
      Of t p' ∧ Of u q' ∧ Registers.Renumbered σ p'.registers q'.registers ∧
        Registers.Idle σ q'.registers := by
  have hcode : q.partialsCode = p.partialsCode.map (PartialsInstruction.renumber σ) := by
    have hroutine := partialsRoutine_of_renumbered ht hu h
    rw [hp.partialsCode, hq.partialsCode, map_ok] at hroutine
    exact Except.ok.inj hroutine
  have hsize : n < p.registers.diffs.size := by
    rw [hp.registers.diffs]
    exact hlt
  obtain ⟨hout, hopened⟩ := sweepPartials_of_renumbered (κ := κ) (hregisters.seed hsize)
    p.partialsCode
  have hfit := fit_sweepPartials (κ := κ) (fit_seed hp.registers) p.partialsCode
  have hfit' := fit_sweepPartials (κ := κ) (fit_seed hq.registers) q.partialsCode
  have hok := (safe_partials ht (partialsCode_of_partialsRoutine ht hp.partialsCode)
    (fit_seed hp.registers)).sweep_eq_ok
  rw [← hcode] at hout hopened
  have hidle : Registers.Idle σ (sweepPartials (κ := κ) q.partialsCode q.registers.seed).2 := by
    have hseed := hregisters.idle_seed hsize
    rwa [Registers.Idle, ← diffs_sweepPartials (κ := κ) q.partialsCode] at hseed
  obtain ⟨r', q', hr, hq', hend⟩ :=
    hp.sweepAccumulations_of_renumbered ht hu h hq hfit hfit' hopened hidle
  have hleft := runDerivatives_of_ok (p := p) (Prod.ext hok rfl)
  have hright := runDerivatives_of_ok (p := q) (Prod.ext (hout.trans hok) rfl)
  refine ⟨_, _, Prod.ext (hp.runDerivatives_eq_ok ht) rfl,
    Prod.ext (hq.runDerivatives_eq_ok hu) rfl, hp.runDerivatives, hq.runDerivatives, ?_⟩
  rw [hleft, hright, hr, hq']
  exact hend

omit [Exponent κ] in
/-- The output is no variable, so it has the register that it had. -/
theorem outputValue_of_renumbered
    (hlt : n < p.registers.values.size)
    (h : Registers.Renumbered σ p.registers q.registers) :
    q.outputValue = p.outputValue := by
  have hlast := h.values (p.registers.values.size - 1)
  rw [(σ.eq_last_iff hlt h.size_values).2 rfl] at hlast
  rw [outputValue, outputValue, Array.back?_eq_getElem?, Array.back?_eq_getElem?, hlast]

omit [Exponent κ] [Scalar κ α] in
theorem gradient_getElem?
    {i : Nat}
    (hi : i < p.dimension)
    (hle : p.dimension ≤ p.registers.diffs.size) :
    p.gradient[i]? = p.registers.diffs[i]? := by
  rw [gradient, Array.getElem?_toList, Array.getElem?_extract, if_pos (by omega), Nat.zero_add]

omit [Exponent κ] in
theorem gradient_of_renumbered
    (hdim : p.dimension = n)
    (hdim' : q.dimension = m)
    (hle : n ≤ p.registers.diffs.size)
    (h : Registers.Renumbered σ p.registers q.registers)
    (hidle : Registers.Idle σ q.registers) :
    σ.Pads 0 p.gradient q.gradient := by
  have hsize := h.size_diffs
  refine ⟨⟨?_, ?_, fun i hi => ?_⟩, fun j hj hunmoved => ?_⟩
  · simp only [gradient, Array.length_toList, Array.size_extract]
    omega
  · simp only [gradient, Array.length_toList, Array.size_extract]
    omega
  · have hσ := σ.lt_inputs_iff.2 hi
    rw [gradient_getElem? (by omega) (by omega), gradient_getElem? (by omega) (by omega), h.diffs]
  · have hd : q.registers.diffs[j]? = some q.registers.diffs[j] :=
      Array.getElem?_eq_getElem (by omega)
    rw [gradient_getElem? (by omega) (by omega), hd, hidle j _ hunmoved hd]

/-- A used program is one of its tape with the registers of a new one, too. -/
theorem Of.renew
    (hp : Of t p) :
    Of t { p with registers := newRegisters t } :=
  { hp with registers := fit_newRegisters t }

omit [Exponent κ] in
/-- New programs of renumbered tapes have renumbered registers. -/
theorem newRegisters_of_renumbered
    (h : Tape.Renumbered σ t u) :
    Registers.Renumbered σ (newRegisters t) (newRegisters u) := by
  have hsize : u.slots.size + n = t.slots.size + m := h.size
  constructor
  · simpa [newRegisters] using hsize
  · intro i
    simp [newRegisters, h.slots]
  · simpa [newRegisters] using h.size
  · intro i
    simp only [newRegisters, Array.getElem?_replicate, h.lt_size_iff]
  · simp [newRegisters, h.edges]

/-- At points that are renumbered alike, programs of renumbered tapes return the same value. -/
theorem Of.evaluate_of_renumbered
    (ht : t.Sound)
    (hu : u.Sound)
    (h : Tape.Renumbered σ t u)
    (hlt : n < t.size)
    (hp : Of t p)
    (hq : Of u q)
    (hpoint : σ.Moves point point') :
    (q.evaluate point').1 = (p.evaluate point).1 := by
  -- What is returned is what the programs return when they are new.
  rw [hp.evaluate_eq ht hp.renew, hq.evaluate_eq hu hq.renew]
  obtain ⟨p', q', hp', hq', hof, -, hafter⟩ :=
    hp.renew.runValues_of_renumbered ht hu h hq.renew (newRegisters_of_renumbered h) hpoint
  have hsize := hof.registers.values
  rw [Program.evaluate, Program.evaluate, hp', hq']
  exact congrArg Except.ok (outputValue_of_renumbered (by omega) hafter)

/-- At such points they return the same value, and gradients that are renumbered alike. -/
theorem Of.differentiate_of_renumbered
    (ht : t.Sound)
    (hu : u.Sound)
    (h : Tape.Renumbered σ t u)
    (hlt : n < t.size)
    (hp : Of t p)
    (hq : Of u q)
    (hpoint : σ.Moves point point') :
    ∃ x gradient gradient', (p.differentiate point n).1 = .ok (x, gradient) ∧
      (q.differentiate point' m).1 = .ok (x, gradient') ∧ σ.Pads 0 gradient gradient' := by
  rw [hp.differentiate_eq ht hp.renew, hq.differentiate_eq hu hq.renew]
  obtain ⟨p₁, q₁, hp₁, hq₁, hof₁, hof₁', hvalues⟩ :=
    hp.renew.runValues_of_renumbered ht hu h hq.renew (newRegisters_of_renumbered h) hpoint
  obtain ⟨p₂, q₂, hp₂, hq₂, hof₂, hof₂', hafter, hidle⟩ :=
    hof₁.runDerivatives_of_renumbered ht hu h hlt hof₁' hvalues
  have hsize := hof₂.registers.values
  have hsize' := hof₂.registers.diffs
  have hdim := hp.dimension.trans h.dimension
  have hdim' := hq.dimension.trans h.dimension'
  refine ⟨p₂.outputValue, p₂.gradient, q₂.gradient, ?_, ?_, gradient_of_renumbered
    (hof₂.dimension.trans h.dimension) (hof₂'.dimension.trans h.dimension') (by omega) hafter hidle⟩
  · rw [Program.differentiate, if_pos hdim.symm, hp₁]
    simp only [hp₂]
  · rw [Program.differentiate, if_pos hdim'.symm, hq₁]
    simp only [hq₂, outputValue_of_renumbered (by omega) hafter]

end Results
end Program
end ReverseMode
