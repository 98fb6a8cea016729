import ReverseMode.Proofs.Program.History
import ReverseMode.Proofs.Tape.Equations

/-!
# The value routine of a program

The instructions of a value routine compute what the rules of a tape do, but for two shortcuts: a
sum of two operands and a square.  With these in place of the rules a tape has equations of its own,
which the routine solves for all scalars.  What the shortcuts need to be exact is asked at the
values of the slots only, since not all scalars have the identities.

**Results.**
* `exists_ofTape`: every sound tape whose functions are registered has a program.
* `Of.runValues_spec`: the value routine solves the equations with shortcuts.
* `Valuation.of_exact`: where the shortcuts are exact, they are the equations of the tape.
* `sweepPartials_spec`: the opening calls cache the partials of the slots that call functions.
-/

namespace ReverseMode

variable {κ α : Type} [Exponent κ] [Scalar κ α]

/-- The identities that the instructions of a program rely on: a sum of two operands starts
without a 0, a sum passes an adjoint back without a factor 1, and a square is a product. -/
structure Scalar.Identities (κ α : Type) [Exponent κ] [Scalar κ α] : Prop where
  zero_add : ∀ x : α, 0 + x = x
  mul_one : ∀ x : α, x * 1 = x
  powConst_two : ∀ (x : α) (k : κ), Exponent.isTwo k = true → Scalar.powConst x k = x * x

section Shortcuts

/-- At some operands the shortcut for an operation gives what its rule does. -/
def Op.ShortcutExact (op : Op κ) (args : List α) : Prop :=
  match op, args with
  | .sum, [a, b] => 0 + a + b = a + b
  | .constPower k, [a] =>
      Exponent.isOne k = false → Exponent.isTwo k = true → Scalar.powConst a k = a * a
  | _, _ => True

/-- The shortcuts for all slots of a tape are exact when the slots have the values `v`. -/
def Tape.ShortcutsExact (t : Tape κ α) (v : Nat → α) : Prop :=
  ∀ (i : Nat) (s : Slot κ α), t.slots[i]? = some s →
    s.op.ShortcutExact ((t.sourcesIn s.inputs).map v)

/-- There is no shortcut for the power 1, which its rule does not compute either. -/
theorem Op.shortcutExact_constPower_one (args : List α) :
    (Op.constPower Exponent.one : Op κ).ShortcutExact args := by
  match args with
  | [a] =>
      intro hone
      rw [Exponent.isOne_one] at hone
      cases hone
  | [] | _ :: _ :: _ => trivial

theorem Scalar.Identities.shortcutsExact
    (ids : Scalar.Identities κ α)
    (t : Tape κ α) (v : Nat → α) :
    t.ShortcutsExact v := by
  intro i s _
  generalize s.op = op
  generalize (t.sourcesIn s.inputs).map v = args
  unfold Op.ShortcutExact
  split
  · rw [ids.zero_add]
  · exact fun _ htwo => ids.powConst_two _ _ htwo
  · trivial

/-- The value of an operation at its operands, by a shortcut if there is one. -/
def Tape.shortResult (t : Tape κ α) (op : Op κ) (stored : α) (args : List α) : α :=
  match op, args with
  | .sum, [a, b] => a + b
  | .constPower k, [a] =>
      if Exponent.isOne k then a
      else if Exponent.isTwo k then a * a
      else Scalar.powConst a k
  | op, args => t.result op stored args

theorem Tape.shortResult_of_exact
    {op : Op κ} {args : List α}
    (t : Tape κ α) (stored : α)
    (h : op.ShortcutExact args) :
    t.shortResult op stored args = t.result op stored args := by
  unfold shortResult
  split
  · rename_i a b
    have hsum : 0 + a + b = a + b := h
    exact hsum.symm
  · rename_i k a
    show _ = Scalar.constPower a k
    rw [Scalar.constPower]
    by_cases hone : Exponent.isOne k = true
    · rw [if_pos hone, if_pos hone]
    · rw [if_neg hone, if_neg hone]
      split
      · rename_i htwo
        exact (h (Bool.eq_false_iff.2 hone) htwo).symm
      · rfl
  · rfl

/-- There is no shortcut for a constant. -/
theorem Tape.shortResult_of_isConst
    {op : Op κ}
    (h : op.isConst = true)
    (t : Tape κ α) (stored : α) (args : List α) :
    t.shortResult op stored args = stored := by
  cases op with
  | const => rfl
  | _ => cases h

/-- Nor for a function. -/
theorem Tape.shortResult_of_isCallback
    {op : Op κ}
    (h : op.isCallback = true)
    (t : Tape κ α) (stored : α) (args : List α) :
    t.shortResult op stored args = t.result op stored args := by
  cases op with
  | unary | binary | nary => rfl
  | _ => cases h

end Shortcuts

namespace Program

variable {t : Tape κ α} {r : Registers α} {v : Nat → α}

/-- Values that solve the equations of a tape at a point, with shortcuts for the rules. -/
structure Valuation (t : Tape κ α) (point : List α) (v : Nat → α) : Prop where
  loaded : ∀ i < t.dimension, point[i]? = some (v i)
  computed : ∀ {i : Nat} {s : Slot κ α}, t.slots[i]? = some s → t.dimension ≤ i →
    v i = t.shortResult s.op s.fresh.value ((t.sourcesIn s.inputs).map v)

/-- Where the shortcuts are exact, a solution of the equations solves those with shortcuts. -/
theorem Valuation.of_exact
    {point : List α}
    (hv : t.Valuation point v)
    (hexact : t.ShortcutsExact v) :
    Valuation t point v := by
  constructor
  · exact hv.loaded
  · intro i s hs hi
    rw [Tape.shortResult_of_exact t _ (hexact i s hs)]
    exact hv.computed hs hi

section Making

omit [Scalar κ α] in
theorem exists_computeOf
    {op : Op κ} {as : List Nat}
    (hover : op.Over as)
    (hreg : op.RegisteredIn t.callbacks) :
    ∃ c, computeOf t op as = .ok c := by
  cases hover with
  | sum as =>
      match as with
      | [] | [a] | [a, b] | a :: b :: c :: as => exact ⟨_, rfl⟩
  | constPower k a =>
      rw [computeOf]
      split
      · exact ⟨_, rfl⟩
      · split <;> exact ⟨_, rfl⟩
  | unary n a =>
      rw [computeOf, Tape.unaryFn_eq_ok hreg]
      exact ⟨_, rfl⟩
  | binary n a b =>
      rw [computeOf, Tape.binaryFn_eq_ok hreg]
      exact ⟨_, rfl⟩
  | nary n as =>
      rw [computeOf, Tape.naryFn_eq_ok hreg]
      exact ⟨_, rfl⟩
  | _ => exact ⟨_, rfl⟩

omit [Exponent κ] [Scalar κ α] in
theorem exists_partialsInstruction?
    (ht : t.Sound)
    {i : Nat} {s : Slot κ α}
    (hs : t.slots[i]? = some s)
    (hreg : s.op.RegisteredIn t.callbacks) :
    ∃ k, partialsInstruction? t i = .ok k := by
  rw [partialsInstruction?, Tape.slot_eq_ok hs, ok_bind, sources_eq_ok ht hs, ok_bind]
  have hover := (ht.slot hs).applied
  generalize s.op = op at hover hreg ⊢
  generalize t.sourcesIn s.inputs = as at hover ⊢
  cases hover with
  | unary n a =>
      simp only [Tape.unaryFn_eq_ok hreg]
      exact ⟨_, rfl⟩
  | binary n a b =>
      simp only [Tape.binaryFn_eq_ok hreg]
      exact ⟨_, rfl⟩
  | nary n as =>
      simp only [Tape.naryFn_eq_ok hreg]
      exact ⟨_, rfl⟩
  | _ => exact ⟨_, rfl⟩

/-- Every sound tape whose functions are registered has a program. -/
theorem exists_ofTape
    {allow : Bool}
    (ht : t.Sound)
    (hreg : t.HandlesRegistered)
    (hallow : allow = true ∨ t.callbackCount = 0) :
    ∃ p, ofTape t allow = .ok p := by
  have hvalues : ∃ code, valueRoutine t = .ok code := by
    have hall : ∀ i ∈ List.range' t.dimension (t.size - t.dimension),
        ∃ k, valueInstruction? t i = .ok k := by
      intro i hi
      rw [List.mem_range'_1] at hi
      obtain ⟨s, hs⟩ := Tape.exists_slot (t := t) (i := i) (by omega)
      obtain ⟨c, hc⟩ := exists_computeOf (ht.slot hs).applied (hreg s (Array.mem_of_getElem? hs))
      rw [valueInstruction?_eq ht hs, hc]
      exact ⟨_, rfl⟩
    obtain ⟨code, hcode⟩ := exists_mapM_eq_ok hall
    rw [valueRoutine, hcode]
    exact ⟨_, rfl⟩
  have hpartials : ∃ code, partialsRoutine t = .ok code := by
    have hall : ∀ i ∈ List.range t.size, ∃ k, partialsInstruction? t i = .ok k := by
      intro i hi
      obtain ⟨s, hs⟩ := Tape.exists_slot (List.mem_range.1 hi)
      exact exists_partialsInstruction? ht hs (hreg s (Array.mem_of_getElem? hs))
    obtain ⟨code, hcode⟩ := exists_mapM_eq_ok hall
    rw [partialsRoutine, hcode]
    exact ⟨_, rfl⟩
  obtain ⟨vs, hvs⟩ := hvalues
  obtain ⟨ps, hps⟩ := hpartials
  have hrefuse : (decide (0 < t.callbackCount) && !allow) = false := by
    rcases hallow with h | h <;> simp [h]
  rw [ofTape, if_neg (by simp [hrefuse]), generate, hvs, hps, accumulationRoutine_eq ht]
  exact ⟨_, rfl⟩

end Making

section Values

/-- The values that registers hold for given slots. -/
def Holds (r : Registers α) (v : Nat → α) (as : List Nat) : Prop :=
  ∀ a ∈ as, r.values[a]? = some (v a)

omit [Exponent κ] [Scalar κ α] in
theorem mapM_value_eq_ok
    {as : List Nat}
    (h : Holds r v as) :
    as.mapM (fun a => (r.value a : Except (Fault κ) α)) = .ok (as.map v) :=
  mapM_eq_ok fun a ha => Registers.value_eq_ok (h a ha)

/-- The instruction for a power copies, squares or computes. -/
theorem run_of_computeOf_constPower
    {k : κ} {a : Nat} {c : Compute κ α}
    (hc : computeOf t (.constPower k) [a] = .ok (some c))
    (ha : (r.value a : Except (Fault κ) α) = .ok (v a))
    (stored : α) :
    c.run r = .ok (t.shortResult (.constPower k) stored [v a]) := by
  rw [computeOf] at hc
  rw [Tape.shortResult]
  split at hc
  · rename_i hone
    cases hc
    rw [Compute.run, ha, if_pos hone]
  · rename_i hone
    rw [if_neg hone]
    split at hc
    · rename_i htwo
      cases hc
      rw [Compute.run, ha, if_pos htwo]
      rfl
    · rename_i htwo
      cases hc
      rw [Compute.run, ha, if_neg htwo, ok_bind, Scalar.constPower, if_neg hone]
      rfl

/-- An instruction gives the value of an operation, by a shortcut if there is one. -/
theorem run_of_computeOf
    {op : Op κ} {as : List Nat} {c : Compute κ α}
    (hover : op.Over as)
    (hc : computeOf t op as = .ok (some c))
    (hv : Holds r v as)
    (stored : α) :
    c.run r = .ok (t.shortResult op stored (as.map v)) := by
  have hval : ∀ a ∈ as, (r.value a : Except (Fault κ) α) = .ok (v a) :=
    fun a ha => Registers.value_eq_ok (hv a ha)
  cases hover with
  | input => cases hc
  | const => cases hc
  | sum as =>
      match as with
      | [] | [a] | a :: b :: c :: as =>
          cases hc
          rw [Compute.run, mapM_value_eq_ok hv]
          rfl
      | [a, b] =>
          cases hc
          rw [Compute.run, hval a (by simp), hval b (by simp)]
          rfl
  | product a b =>
      cases hc
      rw [Compute.run, hval a (by simp), hval b (by simp)]
      rfl
  | constPower k a => exact run_of_computeOf_constPower hc (hval a (by simp)) stored
  | termPower a b =>
      cases hc
      rw [Compute.run, hval a (by simp), hval b (by simp)]
      rfl
  | exp a =>
      cases hc
      rw [Compute.run, hval a (by simp)]
      rfl
  | ln a =>
      cases hc
      rw [Compute.run, hval a (by simp)]
      rfl
  | unary n a =>
      obtain ⟨f, hf, hc⟩ := map_eq_ok_iff.1 hc
      cases hc
      rw [Compute.run, hval a (by simp), Tape.shortResult_of_isCallback rfl, Tape.result,
        Tape.opValue, hf]
      rfl
  | binary n a b =>
      obtain ⟨f, hf, hc⟩ := map_eq_ok_iff.1 hc
      cases hc
      rw [Compute.run, hval a (by simp), hval b (by simp), Tape.shortResult_of_isCallback rfl,
        Tape.result, Tape.opValue, hf]
      rfl
  | nary n as =>
      obtain ⟨f, hf, hc⟩ := map_eq_ok_iff.1 hc
      cases hc
      rw [Compute.run, mapM_value_eq_ok hv, Tape.shortResult_of_isCallback rfl, Tape.result,
        Tape.opValue, hf]
      rfl

/-- The registers after the instructions `done` of the value routine: they hold what a solution of
the equations has for the variables and the targets. -/
structure ValuesInvariant (t : Tape κ α) (v : Nat → α) (done : List (ValueInstruction κ α))
    (r : Registers α) : Prop where
  fit : r.Fit t
  loaded : ∀ i < t.dimension, r.values[i]? = some (v i)
  computed : ∀ k ∈ done, r.values[k.target]? = some (v k.target)

/-- Nor do they hold anything else for a constant. -/
theorem ValuesInvariant.holds
    {point : List α} {done : List (ValueInstruction κ α)} {i : Nat} {s : Slot κ α}
    (hr : ValuesInvariant t v done r)
    (hval : Valuation t point v)
    (hs : t.slots[i]? = some s)
    (hdone : t.dimension ≤ i → s.op.isConst = false → ∃ k ∈ done, k.target = i) :
    r.values[i]? = some (v i) := by
  by_cases hi : i < t.dimension
  · exact hr.loaded i hi
  · have hi := Nat.le_of_not_lt hi
    cases hc : s.op.isConst with
    | false =>
        obtain ⟨k, hk, rfl⟩ := hdone hi hc
        exact hr.computed k hk
    | true =>
        rw [hr.fit.const i s hs hc, hval.computed hs hi, Tape.shortResult_of_isConst hc,
          Slot.fresh]
        simp [hc]

/-- The next instruction reads what the instructions before it have written, and writes above. -/
theorem ValuesInvariant.step
    {point : List α} {done rest : List (ValueInstruction κ α)} {k : ValueInstruction κ α}
    (ht : t.Sound)
    (hval : Valuation t point v)
    (hcode : ValueCode t (done ++ k :: rest))
    (hr : ValuesInvariant t v done r) :
    k.compute.run r = .ok (v k.target) ∧
      ValuesInvariant t v (done ++ [k]) (r.setValue k.target (v k.target)) := by
  obtain ⟨s, hs, hd, hc⟩ := hcode.mem k (by simp)
  obtain ⟨s', hs', hconst⟩ := hcode.target (k := k) (by simp)
  obtain rfl : s = s' := Option.some.inj (hs.symm.trans hs')
  have hsound := ht.slot hs
  have hi := Tape.lt_size_of_slot hs
  obtain ⟨-, hlater, hearlier⟩ := List.pairwise_append.1 hcode.sorted
  have hholds : Holds r v (t.sourcesIn s.inputs) := by
    intro a ha
    have hlt := hsound.earlier a ha
    obtain ⟨q, hq⟩ := Tape.exists_slot (t := t) (i := a) (by omega)
    refine hr.holds hval hq fun had hac => ?_
    obtain ⟨l, hl, rfl⟩ := hcode.complete a q hq had hac
    -- The instruction for an operand is not among those still to come.
    rcases List.mem_append.1 hl with hl | hl
    · exact ⟨l, hl, rfl⟩
    · rcases List.mem_cons.1 hl with rfl | hl
      · omega
      · have := (List.pairwise_cons.1 hlater).1 l hl
        omega
  constructor
  · rw [run_of_computeOf hsound.applied hc hholds s.fresh.value,
      ← hval.computed hs hd]
  · constructor
    · exact fit_setValue hr.fit hs hconst _
    · intro i hi
      rw [Registers.values_setValue_ne r _ (by omega)]
      exact hr.loaded i hi
    · intro l hl
      rw [List.mem_append, List.mem_singleton] at hl
      rcases hl with hl | rfl
      · have hlk := hearlier l hl k (by simp)
        rw [Registers.values_setValue_ne r _ (by omega)]
        exact hr.computed l hl
      · exact Registers.values_setValue_self r _ (by rw [hr.fit.values]; exact hi)

/-- The value routine ends without a fault in the values that solve the equations with
shortcuts. -/
theorem Of.runValues_spec
    {p : Program κ α} {point : List α}
    (ht : t.Sound)
    (hp : Of t p)
    (hlen : point.length = t.dimension)
    (hval : Valuation t point v) :
    ∃ q, p.runValues point = (.ok (), q) ∧ Of t q ∧
      ∀ i < t.size, q.registers.values[i]? = some (v i) := by
  have hcode := valueCode_of_valueRoutine ht hp.valueCode
  have hle := ht.dimension_le
  have hstart : ValuesInvariant t v [] (p.registers.setPoint point) := by
    constructor
    · exact fit_setPoint ht hp.registers hlen
    · intro i hi
      exact Registers.values_setPoint_lt _ (hval.loaded i hi) (by rw [hp.registers.values]; omega)
    · simp
  obtain ⟨r, hr, hinv⟩ : ∃ r,
      sweepValues p.valueCode (p.registers.setPoint point) = (.ok (), r) ∧
        ValuesInvariant t v p.valueCode r := by
    refine sweep_run hstart ?_
    intro done k rest r hplaces hr
    rw [hplaces] at hcode
    exact ⟨_, hr.step ht hval hcode⟩
  refine ⟨{ p with registers := r }, ?_, ?_, ?_⟩
  · rw [runValues_eq (hlen.trans hp.dimension.symm), hr]
  · exact ⟨hp.dimension, hp.valueCode, hp.partialsCode, hp.accumulationCode, hinv.fit⟩
  · intro i hi
    obtain ⟨s, hs⟩ := Tape.exists_slot hi
    exact hinv.holds hval hs fun hd hc => hcode.complete i s hs hd hc

end Values

section Partials

/-- A call gives the partials that a tape computes. -/
theorem run_of_callOf
    {op : Op κ} {as : List Nat} {c : PartialsCall α}
    (hc : CallOf t op as c)
    (hv : Holds r v as)
    (result : α) :
    (c.run r : Except (Fault κ) (List α)) = .ok (t.partials op (as.map v) result) := by
  have hval : ∀ a ∈ as, (r.value a : Except (Fault κ) α) = .ok (v a) :=
    fun a ha => Registers.value_eq_ok (hv a ha)
  cases hc with
  | unary a hf =>
      rw [PartialsCall.run, hval a (by simp), Tape.partials, Tape.opWeights,
        Tape.unaryFn_eq_ok_iff.2 hf]
      rfl
  | binary a b hf =>
      rw [PartialsCall.run, hval a (by simp), hval b (by simp), Tape.partials, Tape.opWeights,
        Tape.binaryFn_eq_ok_iff.2 hf]
      rfl
  | nary as hf =>
      rw [PartialsCall.run, mapM_value_eq_ok hv, Tape.partials, Tape.opWeights,
        Tape.naryFn_eq_ok_iff.2 hf]
      rfl

/-- The registers after the calls `done`: their windows hold the partials at the values `v`. -/
structure PartialsInvariant (t : Tape κ α) (v : Nat → α) (r₀ : Registers α)
    (done : List (PartialsInstruction α)) (r : Registers α) : Prop where
  values : r.values = r₀.values
  diffs : r.diffs = r₀.diffs
  size : r.partials.size = t.edges.size
  cached : ∀ k ∈ done, ∀ s, t.slots[k.slot]? = some s → ∀ n w,
    (t.partialsAt v k.slot s)[n]? = some w → r.partials[s.inputs.start + n]? = some w

theorem length_partialsAt
    (ht : t.Sound)
    (hreg : t.HandlesRegistered)
    {i : Nat} {s : Slot κ α}
    (hs : t.slots[i]? = some s) :
    (t.partialsAt v i s).length = (t.sourcesIn s.inputs).length := by
  have hover := (ht.slot hs).applied.map v
  rw [Tape.partialsAt, (Tape.opWeights_eq_ok _ (hreg s (Array.mem_of_getElem? hs)) hover).2,
    List.length_map]

/-- The windows of the slots that call functions do not overlap, so the next call overwrites no
earlier partial. -/
theorem PartialsInvariant.step
    {r₀ : Registers α} {done rest : List (PartialsInstruction α)} {k : PartialsInstruction α}
    (ht : t.Sound)
    (hreg : t.HandlesRegistered)
    (hcalls : t.CallsApart)
    (hcode : PartialsCode t (done ++ k :: rest))
    (hv : ∀ i < t.size, r₀.values[i]? = some (v i))
    (hr : PartialsInvariant t v r₀ done r) :
    ∃ ws, (k.call.run r : Except (Fault κ) (List α)) = .ok ws ∧
      PartialsInvariant t v r₀ (done ++ [k]) (r.setPartials k.first ws) := by
  obtain ⟨s, hs, hfirst, hcall⟩ := hcode.mem k (by simp)
  have hsound := ht.slot hs
  have hi := Tape.lt_size_of_slot hs
  have hholds : Holds r v (t.sourcesIn s.inputs) := by
    intro a ha
    have := hsound.earlier a ha
    rw [hr.values]
    exact hv a (by omega)
  refine ⟨t.partialsAt v k.slot s, run_of_callOf hcall hholds (v k.slot), ?_⟩
  constructor
  · exact hr.values
  · exact hr.diffs
  · rw [Registers.size_partials_setPartials, hr.size]
  · intro l hl q hq n w hw
    have hn := (List.getElem?_eq_some_iff.1 hw).1
    rw [length_partialsAt ht hreg hq, Tape.length_sourcesIn (ht.slot hq).window] at hn
    rw [List.mem_append, List.mem_singleton] at hl
    rcases hl with hl | rfl
    · have hlk := (List.pairwise_append.1 hcode.sorted).2.2 l hl k (by simp)
      obtain ⟨q', hq', -, hcall'⟩ := hcode.mem l (List.mem_append_left _ hl)
      obtain rfl : q = q' := Option.some.inj (hq.symm.trans hq')
      have hwin := hcalls l.slot k.slot q s hlk hq hs hcall'.isCallback hcall.isCallback
      rw [Registers.partials_setPartials_lt r (by omega)]
      exact hr.cached l hl q hq n w hw
    · obtain rfl : s = q := Option.some.inj (hs.symm.trans hq)
      have hstop := hsound.window
      rw [hfirst]
      exact Registers.partials_setPartials_add r hw (by rw [hr.size]; omega)

/-- The opening calls end without a fault, and cache the partials of the slots that call
functions. -/
theorem sweepPartials_spec
    {code : List (PartialsInstruction α)} {r₀ : Registers α}
    (ht : t.Sound)
    (hreg : t.HandlesRegistered)
    (hcalls : t.CallsApart)
    (hcode : PartialsCode t code)
    (hsize : r₀.partials.size = t.edges.size)
    (hv : ∀ i < t.size, r₀.values[i]? = some (v i)) :
    ∃ r, sweepPartials (κ := κ) code r₀ = (.ok (), r) ∧ r.values = r₀.values ∧
      r.diffs = r₀.diffs ∧
      ∀ i s, t.slots[i]? = some s → s.op.isCallback = true → ∀ n w,
        (t.partialsAt v i s)[n]? = some w → r.partials[s.inputs.start + n]? = some w := by
  obtain ⟨r, hr, hinv⟩ : ∃ r, sweepPartials (κ := κ) code r₀ = (.ok (), r) ∧
      PartialsInvariant t v r₀ code r := by
    refine sweep_run ⟨rfl, rfl, hsize, by simp⟩ ?_
    intro done k rest r hplaces hr
    rw [hplaces] at hcode
    exact hr.step ht hreg hcalls hcode hv
  refine ⟨r, hr, hinv.values, hinv.diffs, ?_⟩
  intro i s hs hcb
  obtain ⟨k, hk, rfl⟩ := hcode.complete i s hs hcb
  exact hinv.cached k hk s hs

end Partials

end Program
end ReverseMode
