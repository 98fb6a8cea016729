import ReverseMode.Proofs.Program.Code
import ReverseMode.Proofs.Tape.Adjoints
import ReverseMode.Proofs.Tape.Renumber

/-!
# Programs with other registers for their variables

**Input.**  A tape, renumbered into another one.

**Argument.**  An instruction that names slots has a form with the new numbers.  It reads from
renumbered registers what the other one reads, and writes to the new number.

**Results.**
* `valueRoutine_of_renumbered`, `partialsRoutine_of_renumbered`: the value routine and the opening
  calls of the one program are those of the other with new numbers, in the same order.
* `accumulations_of_renumbered`: so are the accumulations into one slot.
* `accumulations_eq_nil`: nothing accumulates into a slot that is not one of the first tape.
* `Registers.Renumbered`: what each instruction keeps.
-/

namespace ReverseMode

variable {κ α : Type} {n m : Nat}

section Code

/-- A computation from registers with new numbers. -/
def Compute.renumber (σ : Nat → Nat) : Compute κ α → Compute κ α
  | add a b => add (σ a) (σ b)
  | sum as => sum (as.map σ)
  | mul a b => mul (σ a) (σ b)
  | copy a => copy (σ a)
  | square a => square (σ a)
  | power a k => power (σ a) k
  | termPower a b => termPower (σ a) (σ b)
  | exp a => exp (σ a)
  | ln a => ln (σ a)
  | unary f a => unary f (σ a)
  | binary f a b => binary f (σ a) (σ b)
  | nary f as => nary f (as.map σ)

def ValueInstruction.renumber (σ : Nat → Nat) (k : ValueInstruction κ α) :
    ValueInstruction κ α where
  target := σ k.target
  compute := k.compute.renumber σ

def PartialsCall.renumber (σ : Nat → Nat) : PartialsCall α → PartialsCall α
  | unary f a => unary f (σ a)
  | binary f a b => binary f (σ a) (σ b)
  | nary f as => nary f (as.map σ)

/-- The places of edges have no new numbers. -/
def PartialsInstruction.renumber (σ : Nat → Nat) (k : PartialsInstruction α) :
    PartialsInstruction α where
  slot := σ k.slot
  first := k.first
  call := k.call.renumber σ

def Factor.renumber (σ : Nat → Nat) : Factor κ → Factor κ
  | unit => unit
  | value s => value (σ s)
  | power s k => power (σ s) k
  | base b e => base (σ b) (σ e)
  | exponent b e => exponent (σ b) (σ e)
  | recip s => recip (σ s)
  | cached e => cached e

def Accumulation.renumber (σ : Nat → Nat) (a : Accumulation κ) : Accumulation κ where
  target := σ a.target
  consumer := σ a.consumer
  position := a.position
  factor := a.factor.renumber σ

def Program.Reading.renumber (σ : Nat → Nat) (q : Program.Reading) : Program.Reading where
  consumer := σ q.consumer
  position := q.position
  source := σ q.source

end Code

/-- Registers with new numbers.  Cached partials stand at the places of edges. -/
structure Registers.Renumbered (σ : Renumbering n m) (r q : Registers α) : Prop where
  size_values : q.values.size + n = r.values.size + m
  values : ∀ i, q.values[σ i]? = r.values[i]?
  size_diffs : q.diffs.size + n = r.diffs.size + m
  diffs : ∀ i, q.diffs[σ i]? = r.diffs[i]?
  partials : q.partials = r.partials

/-- The adjoints of all other slots are 0. -/
def Registers.Idle [Scalar κ α] (σ : Renumbering n m) (q : Registers α) : Prop :=
  ∀ j d, (∀ i, σ i ≠ j) → q.diffs[j]? = some d → d = 0

namespace Registers

variable {σ : Renumbering n m} {r q : Registers α}

section Reads

variable (h : Renumbered σ r q)

include h

theorem Renumbered.value (s : Nat) :
    (q.value (σ s) : Except (Fault κ) α) = r.value s := by
  rw [Registers.value, Registers.value, h.values]

theorem Renumbered.diff (s : Nat) :
    (q.diff (σ s) : Except (Fault κ) α) = r.diff s := by
  rw [Registers.diff, Registers.diff, h.diffs]

variable [Scalar κ α]

theorem Renumbered.run_call (c : PartialsCall α) :
    ((c.renumber σ).run q : Except (Fault κ) (List α)) = c.run r := by
  cases c <;>
    simp only [PartialsCall.renumber, PartialsCall.run, h.value, List.mapM_map, Function.comp_def]

variable [Exponent κ]

theorem Renumbered.run_compute (c : Compute κ α) :
    (c.renumber σ).run q = c.run r := by
  cases c <;> simp only [Compute.renumber, Compute.run, h.value, List.mapM_map, Function.comp_def]

theorem Renumbered.amount (a : Accumulation κ) :
    ((a.renumber σ).amount q : Except (Fault κ) α) = a.amount r := by
  obtain ⟨target, consumer, position, factor⟩ := a
  cases factor <;> simp only [Accumulation.renumber, Factor.renumber, Accumulation.amount, h.diff,
    h.value, cachedPartial, h.partials]

end Reads

section Writes

variable [Scalar κ α]

theorem Renumbered.setValue
    (h : Renumbered σ r q)
    (i : Nat) (v : α) :
    Renumbered σ (r.setValue i v) (q.setValue (σ i) v) := by
  refine { h with size_values := ?_, values := ?_ }
  · simpa using h.size_values
  · intro j
    simp only [Registers.setValue, setIfInBounds_eq_modify, Array.getElem?_modify, σ.eq_iff,
      h.values]

theorem Renumbered.setPoint
    {point point' : List α}
    (h : Renumbered σ r q)
    (hle : n ≤ r.values.size)
    (hpoint : σ.Moves point point') :
    Renumbered σ (r.setPoint point) (q.setPoint point') := by
  have hlen := hpoint.length
  have hlen' := hpoint.length'
  refine { h with size_values := ?_, values := ?_ }
  · simpa using h.size_values
  · intro i
    by_cases hi : i < n
    · have hx : point[i]? = some point[i] := List.getElem?_eq_getElem (by omega)
      have hσ := (σ.lt_iff hle h.size_values).2 (Nat.lt_of_lt_of_le hi hle)
      rw [values_setPoint_lt r hx (by omega),
        values_setPoint_lt q ((hpoint.getElem? i hi).trans hx) hσ]
    · have hσ := σ.shifted i (by omega)
      rw [values_setPoint_ge r (by omega), values_setPoint_ge q (by omega), h.values]

theorem Renumbered.setPartials
    (h : Renumbered σ r q)
    (first : Nat) (ws : List α) :
    Renumbered σ (r.setPartials first ws) (q.setPartials first ws) := by
  refine { h with partials := ?_ }
  rw [Registers.setPartials, Registers.setPartials, h.partials]

theorem Renumbered.seed
    (h : Renumbered σ r q)
    (hlt : n < r.diffs.size) :
    Renumbered σ r.seed q.seed := by
  refine { h with size_diffs := ?_, diffs := ?_ }
  · simpa using h.size_diffs
  · intro i
    have hlast : q.diffs.size - 1 = σ i ↔ r.diffs.size - 1 = i := by
      rw [eq_comm, σ.eq_last_iff hlt h.size_diffs, eq_comm]
    simp only [Registers.seed, setIfInBounds_eq_modify, Array.getElem?_modify, hlast,
      Array.getElem?_map, h.diffs]

theorem Renumbered.idle_seed
    (h : Renumbered σ r q)
    (hlt : n < r.diffs.size) :
    Idle σ q.seed := by
  intro j d hj hd
  have hne : ¬ q.diffs.size - 1 = j := by
    rintro rfl
    exact hj _ ((σ.eq_last_iff hlt h.size_diffs).2 rfl)
  rw [Registers.seed, setIfInBounds_eq_modify, Array.getElem?_modify, if_neg hne,
    Array.getElem?_map, Option.map_eq_some_iff] at hd
  obtain ⟨-, -, rfl⟩ := hd
  rfl

theorem Idle.addDiff
    (h : Idle σ q)
    (i : Nat) (d : α) :
    Idle σ (q.addDiff (σ i) d) := by
  intro j x hj hx
  rw [diffs_addDiff_ne q d (hj i)] at hx
  exact h j x hj hx

theorem Renumbered.addDiff
    (h : Renumbered σ r q)
    (i : Nat) (d : α) :
    Renumbered σ (r.addDiff i d) (q.addDiff (σ i) d) := by
  refine { h with size_diffs := ?_, diffs := ?_ }
  · simpa using h.size_diffs
  · intro j
    simp only [Registers.addDiff, Array.getElem?_modify, σ.eq_iff, h.diffs]

end Writes
end Registers

namespace Program

variable {σ : Renumbering n m} {t u : Tape κ α}

section Routines

/-- Variables have no opening call. -/
theorem partialsRoutine_eq
    (ht : t.Sound) :
    partialsRoutine t =
      t.computed.mapM (partialsInstruction? t) >>= fun code => pure (code.filterMap id) := by
  have hinputs : (List.range t.dimension).mapM (partialsInstruction? t) =
      .ok ((List.range t.dimension).map fun _ => none) := by
    apply mapM_eq_ok
    intro i hi
    have hlt := List.mem_range.1 hi
    have hle := ht.dimension_le
    obtain ⟨s, hs⟩ := Tape.exists_slot (t := t) (i := i) (by omega)
    have hinput := (ht.slot hs).input_iff.2 hlt
    rw [partialsInstruction?, Tape.slot_eq_ok hs, ok_bind, sources_eq_ok ht hs, ok_bind]
    cases hop : s.op <;> rw [hop] at hinput <;> first
      | rfl
      | cases hinput
  rw [partialsRoutine, ht.range_size, List.mapM_append, hinputs, ok_bind]
  cases t.computed.mapM (partialsInstruction? t) with
  | error e => rfl
  | ok code =>
      rw [ok_bind, ok_bind, pure_bind]
      simp

/-- What the places of a table may give, on both sides. -/
theorem filterMap_mirror
    {β β' γ γ' ε : Type} {l : List β} {f : β → Except ε (Option γ)} {f' : β' → Except ε (Option γ')}
    (place : β → β') (form : γ → γ')
    (h : ∀ b ∈ l, f' (place b) = (f b).map (Option.map form)) :
    ((l.map place).mapM f' >>= fun code => pure (code.filterMap id)) =
      (l.mapM f >>= fun code => pure (code.filterMap id)).map (List.map form) := by
  rw [mapM_mirror place (Option.map form) h]
  cases l.mapM f with
  | error e => rfl
  | ok code =>
      rw [map_ok, ok_bind, ok_bind, pure_eq_ok, pure_eq_ok, map_ok, List.filterMap_map,
        List.map_filterMap]
      rfl

theorem partialsRoutine_of_renumbered
    (ht : t.Sound)
    (hu : u.Sound)
    (h : Tape.Renumbered σ t u) :
    partialsRoutine u = (partialsRoutine t).map (List.map (PartialsInstruction.renumber σ)) := by
  have hplace : ∀ i ∈ t.computed, partialsInstruction? u (σ i) =
      (partialsInstruction? t i).map (Option.map (PartialsInstruction.renumber σ)) := by
    intro i hi
    obtain ⟨s, hs⟩ := Tape.exists_slot (t := t) (i := i) (by
      have := Tape.mem_computed.1 hi
      omega)
    have hs' := (h.slots i).trans hs
    have hover := (ht.slot hs).applied
    rw [partialsInstruction?, partialsInstruction?, Tape.slot_eq_ok hs, Tape.slot_eq_ok hs',
      sources_eq_ok ht hs, sources_eq_ok hu hs', h.sourcesIn]
    simp only [ok_bind]
    generalize s.op = op at hover ⊢
    generalize t.sourcesIn s.inputs = as at hover ⊢
    cases hover with
    | unary k a =>
        simp only [List.map_cons, List.map_nil, Tape.unaryFn, h.callbacks]
        cases t.callbacks.unary[k]? <;> rfl
    | binary k a b =>
        simp only [List.map_cons, List.map_nil, Tape.binaryFn, h.callbacks]
        cases t.callbacks.binary[k]? <;> rfl
    | nary k as =>
        simp only [Tape.naryFn, h.callbacks]
        cases t.callbacks.nary[k]? <;> rfl
    | _ => rfl
  have hroutine := filterMap_mirror σ (PartialsInstruction.renumber σ) hplace
  rw [← h.computed] at hroutine
  rw [partialsRoutine_eq ht, partialsRoutine_eq hu]
  exact hroutine

theorem readsOf_of_renumbered
    (h : Tape.Renumbered σ t u)
    (j : Nat) :
    readsOf u (σ j) = (readsOf t j).map (Reading.renumber σ) := by
  rw [readsOf, readsOf, h.slots]
  cases t.slots[j]? with
  | none => rfl
  | some s =>
      simp only [Option.map_some, Option.getD_some, h.sourcesIn, List.zipIdx_map, List.map_map]
      rfl

/-- Variables read nothing. -/
theorem reads_eq
    (ht : t.Sound) :
    reads t = t.computed.reverse.flatMap (readsOf t) := by
  have hnil : (List.range t.dimension).reverse.flatMap (readsOf t) = [] := by
    rw [List.flatMap_eq_nil_iff]
    intro j hj
    rw [List.mem_reverse, List.mem_range] at hj
    have hle := ht.dimension_le
    obtain ⟨s, hs⟩ := Tape.exists_slot (t := t) (i := j) (by omega)
    rw [readsOf, hs, Option.map_some, Option.getD_some, Tape.sourcesIn_eq_nil ht hs hj]
    rfl
  rw [reads, ht.range_size, List.reverse_append, List.flatMap_append, hnil, List.append_nil]

theorem consumer_mem_computed
    (ht : t.Sound)
    {q : Reading}
    (hq : q ∈ reads t) :
    q.consumer ∈ t.computed := by
  rw [reads_eq ht, List.mem_flatMap] at hq
  obtain ⟨j, hj, hq⟩ := hq
  obtain ⟨-, -, rfl, -⟩ := mem_readsOf.1 hq
  exact List.mem_reverse.1 hj

theorem reads_of_renumbered
    (ht : t.Sound)
    (hu : u.Sound)
    (h : Tape.Renumbered σ t u) :
    reads u = (reads t).map (Reading.renumber σ) := by
  rw [reads_eq ht, reads_eq hu, h.computed, ← List.map_reverse, List.flatMap_map, List.map_flatMap]
  simp only [readsOf_of_renumbered h]

/-- The factor for an operand is determined. -/
theorem FactorOf.unique
    {consumer start k : Nat} {op : Op κ} {as : List Nat} {f f' : Factor κ}
    (h : FactorOf consumer start op as k f)
    (h' : FactorOf consumer start op as k f') :
    f = f' := by
  cases h with
  | cached as k hcb =>
      cases h' <;> first
        | rfl
        | cases hcb
  | _ =>
      cases h' <;> first
        | rfl
        | contradiction

theorem FactorOf.renumber
    {consumer start k : Nat} {op : Op κ} {as : List Nat} {f : Factor κ}
    (h : FactorOf consumer start op as k f)
    (σ : Nat → Nat) :
    FactorOf (σ consumer) start op (as.map σ) k (f.renumber σ) := by
  cases h with
  | cached as k hcb => exact .cached _ k hcb
  | _ => constructor

theorem factor_of_renumbered
    (ht : t.Sound)
    (hu : u.Sound)
    (h : Tape.Renumbered σ t u)
    {q : Reading}
    (hq : q ∈ reads t) :
    factor u (q.renumber σ) = (factor t q).renumber σ := by
  obtain ⟨s, hs, hsrc⟩ := mem_reads.1 hq
  have hs' : u.slots[(q.renumber σ).consumer]? = some s := (h.slots q.consumer).trans hs
  have hsrc' : (u.sourcesIn s.inputs)[(q.renumber σ).position]? = some (q.renumber σ).source := by
    rw [h.sourcesIn, List.getElem?_map, Reading.renumber, hsrc]
    rfl
  have hspec := (factorOf_spec hu hs' hsrc').2
  rw [h.sourcesIn] at hspec
  exact hspec.unique ((factorOf_spec ht hs hsrc).2.renumber σ)

/-- The accumulations into a slot are those into its new number. -/
theorem accumulations_of_renumbered
    (ht : t.Sound)
    (hu : u.Sound)
    (h : Tape.Renumbered σ t u)
    (i : Nat) :
    accumulations u (σ i) = (accumulations t i).map (Accumulation.renumber σ) := by
  rw [accumulations, accumulations, h.slots]
  split
  · rfl
  · have hsource : ((fun q : Reading => decide (q.source = σ i)) ∘ Reading.renumber σ) =
        fun q => decide (q.source = i) := by
      funext q
      simp only [Function.comp_def, Reading.renumber, σ.eq_iff]
    rw [reads_of_renumbered ht hu h, List.filter_map, hsource, List.map_map, List.map_map]
    apply List.map_congr_left
    intro q hq
    simp only [Function.comp_def, factor_of_renumbered ht hu h (List.mem_filter.1 hq).1]
    rfl

/-- No accumulation is into a slot without an old number. -/
theorem accumulations_eq_nil
    (ht : t.Sound)
    (hu : u.Sound)
    (h : Tape.Renumbered σ t u)
    {j : Nat}
    (hj : ∀ i, σ i ≠ j) :
    accumulations u j = [] := by
  rw [List.eq_nil_iff_forall_not_mem]
  intro a ha
  obtain ⟨q, hq, hsource, -⟩ := mem_accumulations ha
  rw [reads_of_renumbered ht hu h, List.mem_map] at hq
  obtain ⟨q, -, rfl⟩ := hq
  exact hj _ hsource

variable [Exponent κ]

/-- What a slot computes from operands with new numbers. -/
theorem computeOf_of_renumbered
    {op : Op κ} {as : List Nat}
    (h : Tape.Renumbered σ t u)
    (hover : op.Over as) :
    computeOf u op (as.map σ) = (computeOf t op as).map (Option.map (Compute.renumber σ)) := by
  cases hover with
  | sum as =>
      match as with
      | [] | [a] | [a, b] | a :: b :: c :: as => rfl
  | constPower k a =>
      simp only [computeOf, List.map_cons, List.map_nil]
      split
      · rfl
      · split <;> rfl
  | unary k a =>
      simp only [computeOf, List.map_cons, List.map_nil, Tape.unaryFn, h.callbacks]
      cases t.callbacks.unary[k]? <;> rfl
  | binary k a b =>
      simp only [computeOf, List.map_cons, List.map_nil, Tape.binaryFn, h.callbacks]
      cases t.callbacks.binary[k]? <;> rfl
  | nary k as =>
      simp only [computeOf, Tape.naryFn, h.callbacks]
      cases t.callbacks.nary[k]? <;> rfl
  | _ => rfl

theorem valueRoutine_of_renumbered
    (ht : t.Sound)
    (hu : u.Sound)
    (h : Tape.Renumbered σ t u) :
    valueRoutine u = (valueRoutine t).map (List.map (ValueInstruction.renumber σ)) := by
  have hplace : ∀ i ∈ t.computed, valueInstruction? u (σ i) =
      (valueInstruction? t i).map (Option.map (ValueInstruction.renumber σ)) := by
    intro i hi
    obtain ⟨s, hs⟩ := Tape.exists_slot (t := t) (i := i) (by
      have := Tape.mem_computed.1 hi
      omega)
    rw [valueInstruction?_eq ht hs, valueInstruction?_eq hu ((h.slots i).trans hs), h.sourcesIn,
      computeOf_of_renumbered h (ht.slot hs).applied]
    cases computeOf t s.op (t.sourcesIn s.inputs) with
    | error e => rfl
    | ok c => cases c <;> rfl
  have hroutine := filterMap_mirror σ (ValueInstruction.renumber σ) hplace
  rw [← h.computed] at hroutine
  exact hroutine

end Routines

end Program
end ReverseMode
