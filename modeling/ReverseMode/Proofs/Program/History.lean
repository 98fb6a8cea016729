import ReverseMode.Proofs.Program.Code

/-!
# Results and the registers they start from

`Program.Of t p` says that `p` is a program of the tape `t`, used or not: its code is that of
the plan, and its registers have the sizes and the constants of the plan.

**Argument.**  Two programs of one tape run side by side.  An instruction of the value routine
reads variables, constants and values that were computed before; an accumulation reads a cached
partial only of a slot whose call opened the routine.  So both sides read the same.

**Results.**
* `Of.evaluate`, `Of.differentiate`: running keeps a program a program of its tape.
* `Of.evaluate_eq`, `Of.differentiate_eq`: two programs of one tape return the same.
* `evaluate_of_differentiate`: evaluating returns the value that differentiating does.
-/

namespace ReverseMode

variable {κ α : Type}
variable {t u : Tape κ α}

/-- Registers with the sizes and the constants of a tape. -/
structure Registers.Fit (t : Tape κ α) (r : Registers α) : Prop where
  values : r.values.size = t.size
  diffs : r.diffs.size = t.size
  partials : r.partials.size = t.edges.size
  const : ∀ (i : Nat) (s : Slot κ α), t.slots[i]? = some s → s.op.isConst = true →
    r.values[i]? = some s.value

namespace Program

/-- A program of a tape, used or not. -/
structure Of [Exponent κ] (t : Tape κ α) (p : Program κ α) : Prop where
  dimension : p.dimension = t.dimension
  valueCode : valueRoutine t = .ok p.valueCode
  partialsCode : partialsRoutine t = .ok p.partialsCode
  accumulationCode : accumulationRoutine t = .ok p.accumulationCode
  registers : p.registers.Fit t

section Making

variable [Exponent κ] {p q : Program κ α}

/-- The accumulations of a program, those into the last slot first. -/
theorem Of.accumulationCode_eq_flatMap
    (ht : t.Sound)
    (hp : Of t p) :
    p.accumulationCode = (List.range t.size).reverse.flatMap (accumulations t) :=
  Except.ok.inj (hp.accumulationCode.symm.trans (accumulationRoutine_eq ht))

/-- Every accumulation of a program goes into some slot. -/
theorem Of.mem_accumulationCode
    (ht : t.Sound)
    (hp : Of t p) :
    ∀ a ∈ p.accumulationCode, ∃ i, a ∈ accumulations t i := by
  intro a ha
  rw [hp.accumulationCode_eq_flatMap ht, List.mem_flatMap] at ha
  obtain ⟨i, -, ha⟩ := ha
  exact ⟨i, ha⟩

/-- Two programs of one tape have the same code. -/
theorem Of.code_eq
    (hp : Of t p)
    (hq : Of t q) :
    q.dimension = p.dimension ∧ q.valueCode = p.valueCode ∧ q.partialsCode = p.partialsCode ∧
      q.accumulationCode = p.accumulationCode := by
  refine ⟨hq.dimension.trans hp.dimension.symm, ?_, ?_, ?_⟩
  · exact Except.ok.inj (hq.valueCode.symm.trans hp.valueCode)
  · exact Except.ok.inj (hq.partialsCode.symm.trans hp.partialsCode)
  · exact Except.ok.inj (hq.accumulationCode.symm.trans hp.accumulationCode)

variable [Scalar κ α]

/-- The registers of a new program of a tape. -/
def newRegisters (t : Tape κ α) : Registers α where
  values := t.slots.map (·.value)
  diffs := Array.replicate t.size 0
  partials := Array.replicate t.edges.size 0

omit [Exponent κ] in
theorem fit_newRegisters (t : Tape κ α) : (newRegisters t).Fit t := by
  constructor
  · exact Array.size_map
  · exact Array.size_replicate
  · exact Array.size_replicate
  · intro i s hs _
    simp [newRegisters, hs]

theorem of_generate
    (h : generate t = .ok p) :
    Of t p := by
  rw [generate] at h
  obtain ⟨vs, hvs, h⟩ := bind_eq_ok_iff.1 h
  obtain ⟨ps, hps, h⟩ := bind_eq_ok_iff.1 h
  obtain ⟨as, has, h⟩ := bind_eq_ok_iff.1 h
  obtain rfl := Except.ok.inj h
  exact ⟨rfl, hvs, hps, has, fit_newRegisters t⟩

theorem of_ofTape
    {allow : Bool}
    (h : ofTape t allow = .ok p) :
    Of t p := by
  rw [ofTape] at h
  split at h
  · cases h
  · exact of_generate (mapError_eq_ok_iff.1 h)

/-- A program of a tape is one of every tape with the same plan. -/
theorem Of.of_fresh_eq
    (hp : Of t p)
    (h : t.fresh = u.fresh) :
    Of u p := by
  have hfit := hp.registers
  constructor
  · rw [hp.dimension, Tape.dimension_of_fresh_eq h]
  · rw [← valueRoutine_of_fresh_eq h, hp.valueCode]
  · rw [← partialsRoutine_of_fresh_eq h, hp.partialsCode]
  · rw [← accumulationRoutine_of_fresh_eq h, hp.accumulationCode]
  · constructor
    · rw [hfit.values, Tape.size_of_fresh_eq h]
    · rw [hfit.diffs, Tape.size_of_fresh_eq h]
    · rw [hfit.partials, Tape.size_edges_of_fresh_eq h]
    · intro i r hr hc
      obtain ⟨s, hs, hop, -, hval⟩ := Tape.slot_of_fresh_eq h.symm hr
      rw [← hval hc]
      exact hfit.const i s hs (by rw [hop]; exact hc)

end Making

section Running

variable [Exponent κ] [Scalar κ α] {p q : Program κ α} {r r' : Registers α} {point : List α}

/-- The value routine as a sweep. -/
def sweepValues (code : List (ValueInstruction κ α)) (r : Registers α) :
    Except (Fault κ) Unit × Registers α :=
  sweep (fun r (k : ValueInstruction κ α) => k.compute.run r)
    (fun r k v => r.setValue k.target v) code r

/-- The opening calls as a sweep. -/
def sweepPartials (code : List (PartialsInstruction α)) (r : Registers α) :
    Except (Fault κ) Unit × Registers α :=
  sweep (fun r (k : PartialsInstruction α) => k.call.run r)
    (fun r k ws => r.setPartials k.first ws) code r

/-- The accumulations as a sweep. -/
def sweepAccumulations (code : List (Accumulation κ)) (r : Registers α) :
    Except (Fault κ) Unit × Registers α :=
  sweep (fun r (a : Accumulation κ) => a.amount r)
    (fun r a d => r.addDiff a.target d) code r

theorem runValues_eq
    (hp : point.length = p.dimension) :
    p.runValues point =
      ((sweepValues p.valueCode (p.registers.setPoint point)).1,
        { p with registers := (sweepValues p.valueCode (p.registers.setPoint point)).2 }) := by
  obtain ⟨dimension, registers, valueCode, partialsCode, accumulationCode⟩ := p
  exact if_pos hp

theorem runValues_of_length_ne
    (hp : point.length ≠ p.dimension) :
    p.runValues point = (.error .pointLength, p) := by
  obtain ⟨dimension, registers, valueCode, partialsCode, accumulationCode⟩ := p
  exact if_neg hp

theorem runDerivatives_of_error
    {e : Fault κ}
    (h : sweepPartials p.partialsCode p.registers.seed = (.error e, r)) :
    p.runDerivatives = (.error e, { p with registers := r }) := by
  obtain ⟨dimension, registers, valueCode, partialsCode, accumulationCode⟩ := p
  unfold sweepPartials at h
  simp only [runDerivatives, h]

theorem runDerivatives_of_ok
    (h : sweepPartials (κ := κ) p.partialsCode p.registers.seed = (.ok (), r)) :
    p.runDerivatives =
      ((sweepAccumulations p.accumulationCode r).1,
        { p with registers := (sweepAccumulations p.accumulationCode r).2 }) := by
  obtain ⟨dimension, registers, valueCode, partialsCode, accumulationCode⟩ := p
  unfold sweepPartials at h
  simp only [runDerivatives, h]
  rfl

end Running

section Keeping

variable {r : Registers α} {point : List α}

theorem fit_setPoint
    (ht : t.Sound)
    (hr : r.Fit t)
    (hp : point.length = t.dimension) :
    (r.setPoint point).Fit t := by
  constructor
  · rw [Registers.size_values_setPoint, hr.values]
  · exact hr.diffs
  · exact hr.partials
  · intro i s hs hc
    have hin := (ht.slot hs).input_iff
    have hinput : s.op.isInput = false := by
      cases hop : s.op <;> rw [hop] at hc <;> first
        | rfl
        | cases hc
    rw [hinput] at hin
    rw [Registers.values_setPoint_ge r (by have := hin.2; grind)]
    exact hr.const i s hs hc

theorem fit_setValue
    {i : Nat} {s : Slot κ α}
    (hr : r.Fit t)
    (hs : t.slots[i]? = some s)
    (hc : s.op.isConst = false)
    (v : α) :
    (r.setValue i v).Fit t := by
  constructor
  · rw [Registers.size_values_setValue, hr.values]
  · exact hr.diffs
  · exact hr.partials
  · intro j q hq hqc
    by_cases hij : i = j
    · subst hij
      obtain rfl : s = q := Option.some.inj (hs.symm.trans hq)
      rw [hc] at hqc
      cases hqc
    · rw [Registers.values_setValue_ne r v hij]
      exact hr.const j q hq hqc

theorem fit_setPartials
    (hr : r.Fit t)
    (first : Nat) (ws : List α) :
    (r.setPartials first ws).Fit t := by
  constructor
  · exact hr.values
  · exact hr.diffs
  · rw [Registers.size_partials_setPartials, hr.partials]
  · exact hr.const

variable [Scalar κ α]

theorem fit_seed
    (hr : r.Fit t) :
    r.seed.Fit t := by
  constructor
  · exact hr.values
  · rw [Registers.size_diffs_seed, hr.diffs]
  · exact hr.partials
  · exact hr.const

theorem fit_addDiff
    (hr : r.Fit t)
    (i : Nat) (d : α) :
    (r.addDiff i d).Fit t := by
  constructor
  · exact hr.values
  · rw [Registers.size_diffs_addDiff, hr.diffs]
  · exact hr.partials
  · exact hr.const

theorem fit_sweepPartials
    (hr : r.Fit t)
    (code : List (PartialsInstruction α)) :
    (sweepPartials (κ := κ) code r).2.Fit t := by
  apply sweep_preserves (P := fun r : Registers α => r.Fit t)
  · exact hr
  · intro k _ r ws hr _
    exact fit_setPartials hr k.first ws

variable [Exponent κ] {p : Program κ α}

omit [Scalar κ α] in
/-- The target of an instruction is not a constant. -/
theorem ValueCode.target
    {code : List (ValueInstruction κ α)} {k : ValueInstruction κ α}
    (h : ValueCode t code)
    (hk : k ∈ code) :
    ∃ s, t.slots[k.target]? = some s ∧ s.op.isConst = false := by
  obtain ⟨s, hs, -, hc⟩ := h.mem k hk
  refine ⟨s, hs, ?_⟩
  rw [Bool.eq_false_iff]
  intro hconst
  cases hop : s.op <;> rw [hop] at hconst hc <;> cases hconst
  cases hc

theorem Of.runValues
    (ht : t.Sound)
    (hp : Of t p)
    (point : List α) :
    Of t (p.runValues point).2 := by
  by_cases hlen : point.length = p.dimension
  · rw [runValues_eq hlen]
    refine ⟨hp.dimension, hp.valueCode, hp.partialsCode, hp.accumulationCode, ?_⟩
    apply sweep_preserves (P := fun r : Registers α => r.Fit t)
    · exact fit_setPoint ht hp.registers (hlen.trans hp.dimension)
    · intro k hk r v hr _
      obtain ⟨s, hs, hc⟩ := (valueCode_of_valueRoutine ht hp.valueCode).target hk
      exact fit_setValue hr hs hc v
  · rw [runValues_of_length_ne hlen]
    exact hp

theorem Of.runDerivatives
    (hp : Of t p) :
    Of t p.runDerivatives.2 := by
  have hopened := fit_sweepPartials (κ := κ) (fit_seed hp.registers) p.partialsCode
  rcases h : sweepPartials (κ := κ) p.partialsCode p.registers.seed with ⟨o, r⟩
  rw [h] at hopened
  cases o with
  | error e =>
      rw [runDerivatives_of_error h]
      exact ⟨hp.dimension, hp.valueCode, hp.partialsCode, hp.accumulationCode, hopened⟩
  | ok _ =>
      rw [runDerivatives_of_ok h]
      refine ⟨hp.dimension, hp.valueCode, hp.partialsCode, hp.accumulationCode, ?_⟩
      apply sweep_preserves (P := fun r : Registers α => r.Fit t)
      · exact hopened
      · intro a _ r d hr _
        exact fit_addDiff hr a.target d

/-- Evaluating keeps a program a program of its tape. -/
theorem Of.evaluate
    (ht : t.Sound)
    (hp : Of t p)
    (point : List α) :
    Of t (p.evaluate point).2 := by
  have h := hp.runValues ht point
  rw [Program.evaluate]
  split <;> simp_all

/-- Differentiating keeps a program a program of its tape. -/
theorem Of.differentiate
    (ht : t.Sound)
    (hp : Of t p)
    (point : List α) (room : Nat) :
    Of t (p.differentiate point room).2 := by
  have h := hp.runValues ht point
  rw [Program.differentiate]
  split
  · split
    · simp_all
    · rename_i q hq
      rw [hq] at h
      have hd := h.runDerivatives
      split <;> simp_all
  · exact hp

end Keeping

variable [Exponent κ] [Scalar κ α]

section Agreement

variable {r r' : Registers α} {point : List α}

/-- Two sets of registers after the instructions `done`: they agree on variables, constants and
what these instructions have computed. -/
structure ValuesAgree (t : Tape κ α) (done : List (ValueInstruction κ α))
    (r r' : Registers α) : Prop where
  left : r.Fit t
  right : r'.Fit t
  value : ∀ j, (j < t.dimension ∨ ∃ k ∈ done, k.target = j) → r.values[j]? = r'.values[j]?

/-- The next instruction reads the same in both files, and writes it to both. -/
theorem ValuesAgree.step
    {done rest : List (ValueInstruction κ α)} {k : ValueInstruction κ α} {v w : Registers α}
    (ht : t.Sound)
    (hcode : ValueCode t (done ++ k :: rest))
    (hvw : ValuesAgree t done v w) :
    (k.compute.run v : Except (Fault κ) α) = k.compute.run w ∧
      ∀ x, ValuesAgree t (done ++ [k]) (v.setValue k.target x) (w.setValue k.target x) := by
  constructor
  · apply Compute.run_congr
    intro j hj
    rcases hcode.covered ht hj with hd | ⟨s, hs, hc⟩ | hdone
    · exact hvw.value j (.inl hd)
    · exact (hvw.left.const j s hs hc).trans (hvw.right.const j s hs hc).symm
    · exact hvw.value j (.inr hdone)
  · intro x
    obtain ⟨s, hs, hc⟩ := hcode.target (k := k) (by simp)
    refine ⟨fit_setValue hvw.left hs hc x, fit_setValue hvw.right hs hc x, ?_⟩
    intro j hj
    have hk := Tape.lt_size_of_slot hs
    by_cases hkj : k.target = j
    · subst hkj
      rw [Registers.values_setValue_self v x (by rw [hvw.left.values]; exact hk),
        Registers.values_setValue_self w x (by rw [hvw.right.values]; exact hk)]
    · rw [Registers.values_setValue_ne v x hkj, Registers.values_setValue_ne w x hkj]
      refine hvw.value j ?_
      rcases hj with hj | ⟨l, hl, hlj⟩
      · exact .inl hj
      · rw [List.mem_append, List.mem_singleton] at hl
        rcases hl with hl | rfl
        · exact .inr ⟨l, hl, hlj⟩
        · exact absurd hlj hkj

omit [Scalar κ α] in
/-- Files that agree on all targets of a value routine hold the same values: what is neither a
variable nor a target is a constant. -/
theorem ValuesAgree.values_eq
    {code : List (ValueInstruction κ α)} {v w : Registers α}
    (hcode : ValueCode t code)
    (h : ValuesAgree t code v w) :
    v.values = w.values := by
  have hsize := h.left.values
  have hsize' := h.right.values
  apply Array.ext_getElem?
  intro j
  by_cases hj : j < t.size
  · obtain ⟨s, hs⟩ := Tape.exists_slot hj
    by_cases hd : j < t.dimension
    · exact h.value j (.inl hd)
    · cases hc : s.op.isConst with
      | true => exact (h.left.const j s hs hc).trans (h.right.const j s hs hc).symm
      | false => exact h.value j (.inr (hcode.complete j s hs (by omega) hc))
  · rw [Array.getElem?_eq_none (by omega), Array.getElem?_eq_none (by omega)]

/-- Two value routines of one tape read the same throughout, and leave the same values. -/
theorem sweepValues_agree
    {code : List (ValueInstruction κ α)}
    (ht : t.Sound)
    (hcode : ValueCode t code)
    (hr : r.Fit t)
    (hr' : r'.Fit t)
    (hp : point.length = t.dimension) :
    (sweepValues code (r.setPoint point)).1 = (sweepValues code (r'.setPoint point)).1 ∧
      ((sweepValues code (r.setPoint point)).1 = .ok () →
        (sweepValues code (r.setPoint point)).2.values =
          (sweepValues code (r'.setPoint point)).2.values) := by
  have hle := ht.dimension_le
  have hstart : ValuesAgree t [] (r.setPoint point) (r'.setPoint point) := by
    refine ⟨fit_setPoint ht hr hp, fit_setPoint ht hr' hp, ?_⟩
    rintro j (hj | ⟨k, hk, -⟩)
    · have hx : point[j]? = some point[j] := List.getElem?_eq_getElem (by omega)
      rw [Registers.values_setPoint_lt r hx (by rw [hr.values]; omega),
        Registers.values_setPoint_lt r' hx (by rw [hr'.values]; omega)]
    · cases hk
  obtain ⟨hout, hstate⟩ :
      (sweepValues code (r.setPoint point)).1 = (sweepValues code (r'.setPoint point)).1 ∧
        ((sweepValues code (r.setPoint point)).1 = .ok () →
          ValuesAgree t code (sweepValues code (r.setPoint point)).2
            (sweepValues code (r'.setPoint point)).2) := by
    refine sweep_agree hstart ?_
    intro done k rest v w hplaces hvw
    rw [hplaces] at hcode
    obtain ⟨hread, hwrite⟩ := hvw.step ht hcode
    exact ⟨hread, fun x _ => hwrite x⟩
  exact ⟨hout, fun hok => (hstate hok).values_eq hcode⟩

omit [Exponent κ] in
/-- A call gives one partial for each slot that it reads. -/
theorem length_of_call
    {op : Op κ} {as : List Nat} {c : PartialsCall α} {ws : List α}
    (hc : CallOf t op as c)
    (h : (c.run r : Except (Fault κ) (List α)) = .ok ws) :
    ws.length = as.length := by
  rw [PartialsCall.length_run h, hc.operands_eq]

/-- A cached partial that agrees or is written on both sides agrees afterwards. -/
theorem partials_setPartials_congr
    {first e : Nat} {ws : List α}
    (hsize : r.partials.size = r'.partials.size)
    (he : r.partials[e]? = r'.partials[e]? ∨ first ≤ e ∧ e < first + ws.length) :
    (r.setPartials first ws).partials[e]? = (r'.setPartials first ws).partials[e]? := by
  by_cases hbefore : e < first
  · rw [Registers.partials_setPartials_lt r hbefore, Registers.partials_setPartials_lt r' hbefore]
    exact he.resolve_right (by omega)
  by_cases hafter : first + ws.length ≤ e
  · rw [Registers.partials_setPartials_ge r hafter, Registers.partials_setPartials_ge r' hafter]
    exact he.resolve_right (by omega)
  obtain ⟨k, rfl⟩ : ∃ k, e = first + k := ⟨e - first, by omega⟩
  have hk : ws[k]? = some ws[k] := List.getElem?_eq_getElem (by omega)
  by_cases hin : first + k < r.partials.size
  · rw [Registers.partials_setPartials_add r hk hin,
      Registers.partials_setPartials_add r' hk (hsize ▸ hin)]
  · rw [Array.getElem?_eq_none (by rw [Registers.size_partials_setPartials]; omega),
      Array.getElem?_eq_none (by rw [Registers.size_partials_setPartials]; omega)]

/-- Two sets of registers with one set of values and adjoints, after the calls `done`: they agree
on the partials that these calls cache. -/
structure PartialsAgree (done : List (PartialsInstruction α)) (r r' : Registers α) : Prop where
  values : r.values = r'.values
  diffs : r.diffs = r'.diffs
  size : r.partials.size = r'.partials.size
  cached : ∀ k ∈ done, ∀ e, k.first ≤ e → e < k.first + k.call.operands.length →
    r.partials[e]? = r'.partials[e]?

omit [Exponent κ] in
theorem sweepPartials_agree
    {code : List (PartialsInstruction α)}
    (hcode : PartialsCode t code)
    (h : PartialsAgree [] r r') :
    (sweepPartials (κ := κ) code r).1 = (sweepPartials code r').1 ∧
      ((sweepPartials (κ := κ) code r).1 = .ok () →
        PartialsAgree code (sweepPartials (κ := κ) code r).2
          (sweepPartials (κ := κ) code r').2) := by
  refine sweep_agree (R := PartialsAgree) h ?_
  intro done k rest v w hplaces hvw
  have hread : (k.call.run v : Except (Fault κ) (List α)) = k.call.run w :=
    PartialsCall.run_congr fun a _ => by rw [hvw.values]
  refine ⟨hread, fun ws hws => ?_⟩
  obtain ⟨s, -, -, hcall⟩ := hcode.mem k (by simp [hplaces])
  have hops := hcall.operands_eq
  have hlen := length_of_call hcall hws
  constructor
  · exact hvw.values
  · exact hvw.diffs
  · rw [Registers.size_partials_setPartials, Registers.size_partials_setPartials, hvw.size]
  · intro l hl e hfirst hlast
    apply partials_setPartials_congr hvw.size
    rw [List.mem_append, List.mem_singleton] at hl
    rcases hl with hl | rfl
    · exact .inl (hvw.cached l hl e hfirst hlast)
    · rw [hops] at hlast
      exact .inr ⟨hfirst, by omega⟩

omit [Exponent κ] [Scalar κ α] in
/-- An accumulation reads cached partials of the opening calls only. -/
theorem cached_of_mem_accumulations
    {code : List (PartialsInstruction α)} {i e : Nat} {a : Accumulation κ}
    (ht : t.Sound)
    (hcode : PartialsCode t code)
    (ha : a ∈ accumulations t i)
    (he : a.factor = .cached e) :
    ∃ k ∈ code, k.first ≤ e ∧ e < k.first + k.call.operands.length := by
  obtain ⟨q, hq, -, -, -, -, hfactor⟩ := mem_accumulations ha
  obtain ⟨s, hs, hsrc⟩ := mem_reads.1 hq
  have hspec := (factorOf_spec ht hs hsrc).2
  rw [← hfactor, he] at hspec
  obtain ⟨hcb, rfl⟩ := hspec.of_cached
  obtain ⟨l, hl, hslot⟩ := hcode.complete q.consumer s hs hcb
  obtain ⟨s', hs', hfirst, hcall⟩ := hcode.mem l hl
  rw [hslot] at hs'
  obtain rfl : s = s' := Option.some.inj (hs.symm.trans hs')
  have hpos := (List.getElem?_eq_some_iff.1 hsrc).1
  rw [← hcall.operands_eq] at hpos
  exact ⟨l, hl, by omega, by omega⟩

theorem sweepAccumulations_agree
    {partialsCode : List (PartialsInstruction α)} {code : List (Accumulation κ)}
    (ht : t.Sound)
    (hpartials : PartialsCode t partialsCode)
    (hcode : ∀ a ∈ code, ∃ i, a ∈ accumulations t i)
    (h : PartialsAgree partialsCode r r') :
    (sweepAccumulations code r).1 = (sweepAccumulations code r').1 ∧
      ((sweepAccumulations code r).1 = .ok () →
        PartialsAgree partialsCode (sweepAccumulations code r).2
          (sweepAccumulations code r').2) := by
  refine sweep_agree (R := fun _ v w => PartialsAgree partialsCode v w) h ?_
  intro done a rest v w hplaces hvw
  obtain ⟨i, ha⟩ := hcode a (by simp [hplaces])
  have hread : (a.amount v : Except (Fault κ) α) = a.amount w := by
    apply Accumulation.amount_congr
    · rw [hvw.diffs]
    · intro s _
      rw [hvw.values]
    · intro e he
      obtain ⟨k, hk, hfirst, hlast⟩ := cached_of_mem_accumulations ht hpartials ha he
      exact hvw.cached k hk e hfirst hlast
  refine ⟨hread, fun d _ => ?_⟩
  constructor
  · exact hvw.values
  · simp only [Registers.addDiff, hvw.diffs]
  · exact hvw.size
  · exact hvw.cached

end Agreement

section Results

variable {p q : Program κ α}

/-- Two value routines of one tape end alike, and leave the same values. -/
theorem Of.runValues_agree
    (ht : t.Sound)
    (hp : Of t p)
    (hq : Of t q)
    (point : List α) :
    (p.runValues point).1 = (q.runValues point).1 ∧
      ((p.runValues point).1 = .ok () →
        (p.runValues point).2.registers.values = (q.runValues point).2.registers.values) := by
  obtain ⟨hdim, hvalue, -, -⟩ := hp.code_eq hq
  by_cases hlen : point.length = p.dimension
  · rw [runValues_eq hlen, runValues_eq (hlen.trans hdim.symm), hvalue]
    exact sweepValues_agree ht (valueCode_of_valueRoutine ht hp.valueCode) hp.registers
      hq.registers (hlen.trans hp.dimension)
  · rw [runValues_of_length_ne hlen, runValues_of_length_ne (hdim ▸ hlen)]
    exact ⟨rfl, fun h => by cases h⟩

/-- Two derivative routines of one tape that start from the same values end alike, and leave the
same adjoints. -/
theorem Of.runDerivatives_agree
    (ht : t.Sound)
    (hp : Of t p)
    (hq : Of t q)
    (hvalues : p.registers.values = q.registers.values) :
    p.runDerivatives.1 = q.runDerivatives.1 ∧
      (p.runDerivatives.1 = .ok () →
        p.runDerivatives.2.outputValue = q.runDerivatives.2.outputValue ∧
          p.runDerivatives.2.gradient = q.runDerivatives.2.gradient) := by
  obtain ⟨hdim, -, hpartials, haccumulation⟩ := hp.code_eq hq
  have hcode := partialsCode_of_partialsRoutine ht hp.partialsCode
  have hseed : PartialsAgree [] p.registers.seed q.registers.seed := by
    constructor
    · exact hvalues
    · apply Array.ext_getElem?
      intro i
      have hsize : p.registers.diffs.size = q.registers.diffs.size :=
        hp.registers.diffs.trans hq.registers.diffs.symm
      by_cases hi : i < p.registers.diffs.size
      · rw [Registers.diffs_seed _ hi, Registers.diffs_seed _ (hsize ▸ hi), hsize]
      · rw [Array.getElem?_eq_none (by rw [Registers.size_diffs_seed]; omega),
          Array.getElem?_eq_none (by rw [Registers.size_diffs_seed]; omega)]
    · exact hp.registers.partials.trans hq.registers.partials.symm
    · simp
  obtain ⟨hout, hstate⟩ := sweepPartials_agree (t := t) hcode hseed
  rcases hps : sweepPartials (κ := κ) p.partialsCode p.registers.seed with ⟨o, v⟩
  rcases hqs : sweepPartials (κ := κ) p.partialsCode q.registers.seed with ⟨o', w⟩
  rw [hps, hqs] at hout hstate
  obtain rfl : o = o' := hout
  cases o with
  | error e =>
      rw [runDerivatives_of_error hps, runDerivatives_of_error (hpartials ▸ hqs)]
      exact ⟨rfl, fun h => by cases h⟩
  | ok _ =>
      rw [runDerivatives_of_ok hps, runDerivatives_of_ok (hpartials ▸ hqs), haccumulation]
      obtain ⟨hout, hfinal⟩ := sweepAccumulations_agree ht hcode
        (hp.mem_accumulationCode ht) (hstate rfl)
      refine ⟨hout, fun hok => ?_⟩
      have hagree := hfinal hok
      simp only [outputValue, gradient, hagree.values, hagree.diffs, hdim]
      exact ⟨trivial, trivial⟩

/-- Evaluating shows nothing of the registers it starts from. -/
theorem Of.evaluate_eq
    (ht : t.Sound)
    (hp : Of t p)
    (hq : Of t q)
    (point : List α) :
    (p.evaluate point).1 = (q.evaluate point).1 := by
  obtain ⟨hout, hvalues⟩ := hp.runValues_agree ht hq point
  rw [Program.evaluate, Program.evaluate]
  rcases hps : p.runValues point with ⟨o, p'⟩
  rcases hqs : q.runValues point with ⟨o', q'⟩
  rw [hps, hqs] at hout hvalues
  obtain rfl : o = o' := hout
  cases o with
  | error e => rfl
  | ok _ =>
      have hvalues : p'.registers.values = q'.registers.values := hvalues rfl
      simp only [outputValue, hvalues]

/-- Differentiating shows nothing of the registers it starts from. -/
theorem Of.differentiate_eq
    (ht : t.Sound)
    (hp : Of t p)
    (hq : Of t q)
    (point : List α) (room : Nat) :
    (p.differentiate point room).1 = (q.differentiate point room).1 := by
  have hdim := (hp.code_eq hq).1
  obtain ⟨hout, hvalues⟩ := hp.runValues_agree ht hq point
  have hp' := hp.runValues ht point
  have hq' := hq.runValues ht point
  rw [Program.differentiate, Program.differentiate, hdim]
  by_cases hroom : room = p.dimension
  · rw [if_pos hroom, if_pos hroom]
    rcases hps : p.runValues point with ⟨o, p'⟩
    rcases hqs : q.runValues point with ⟨o', q'⟩
    rw [hps, hqs] at hout hvalues
    rw [hps] at hp'
    rw [hqs] at hq'
    obtain rfl : o = o' := hout
    cases o with
    | error e => rfl
    | ok _ =>
        obtain ⟨hout, hfinal⟩ := hp'.runDerivatives_agree ht hq' (hvalues rfl)
        rcases hpd : p'.runDerivatives with ⟨o, p''⟩
        rcases hqd : q'.runDerivatives with ⟨o', q''⟩
        rw [hpd, hqd] at hout hfinal
        obtain rfl : o = o' := hout
        cases o with
        | error e => simp only [hpd, hqd]
        | ok _ =>
            obtain ⟨hvalue, hgrad⟩ := hfinal rfl
            simp only [hpd, hqd, hvalue, hgrad]
  · rw [if_neg hroom, if_neg hroom]

/-- The derivative routine leaves the values alone. -/
theorem values_runDerivatives (p : Program κ α) :
    p.runDerivatives.2.registers.values = p.registers.values := by
  have hopened : (sweepPartials (κ := κ) p.partialsCode p.registers.seed).2.values =
      p.registers.values :=
    sweep_preserves (P := fun r : Registers α => r.values = p.registers.values) rfl
      fun _ _ _ _ hr _ => hr
  rcases h : sweepPartials (κ := κ) p.partialsCode p.registers.seed with ⟨o, r⟩
  rw [h] at hopened
  cases o with
  | error e =>
      rw [runDerivatives_of_error h]
      exact hopened
  | ok _ =>
      rw [runDerivatives_of_ok h]
      exact sweep_preserves (P := fun r : Registers α => r.values = p.registers.values) hopened
        fun _ _ _ _ hr _ => hr

/-- Evaluating returns the value that differentiating returns. -/
theorem evaluate_of_differentiate
    {point : List α} {room : Nat} {x : α} {grad : List α}
    (h : (p.differentiate point room).1 = .ok (x, grad)) :
    (p.evaluate point).1 = .ok x := by
  rw [Program.differentiate] at h
  split at h
  · rcases hp : p.runValues point with ⟨o, p'⟩
    rw [hp] at h
    cases o with
    | error e => cases h
    | ok _ =>
        have hvalues := values_runDerivatives p'
        rcases hd : p'.runDerivatives with ⟨o, q'⟩
        simp only [hd] at h hvalues
        cases o with
        | error e => cases h
        | ok _ =>
            obtain ⟨rfl, -⟩ := Prod.mk.inj (Except.ok.inj h)
            rw [Program.evaluate, hp]
            simp only [outputValue, hvalues]
  · cases h

end Results
end Program
end ReverseMode
