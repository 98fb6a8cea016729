import ReverseMode.Proofs.Compiled.History
import ReverseMode.Proofs.Tape.WellFormed

/-!
# What sweeps leave alone

**Input.**  A tape that a caller can come to hold, and any sequence of sweeps; a compiled term with
the generated engine, and any sequence of its calls.

**Argument.**  A sweep writes at indices that it reads off the tape, so each of its writes is looked
at for any index: writing a value is not seen in adjoints and edges, writing weights not in slots,
adding to adjoints not in values and edges.  What every write keeps, a sweep keeps, and what every
sweep of a sequence keeps, the sequence keeps.

**Results.**
* `samePlan_of_fresh_eq`: sweeps, which keep the plan, keep dimension, operations, windows, sources,
  functions and constants, and with them the verdict on the shape.
* `values_after`, `weights_after`, `adjoints_after`: what one sweep leaves alone beside the plan.
* `run_preserves`: what each sweep of a sequence keeps, the sequence keeps.
* `CompiledTerm.sweeps_keep_frame`: the frame of all sweeps, and of all calls of the generated
  engine.
-/

namespace ReverseMode

variable {κ α : Type}

namespace Tape

section Defs

variable [Exponent κ]

/-- The values of all slots. -/
def values (t : Tape κ α) : Array α :=
  t.slots.map (·.value)

/-- The adjoints of all slots. -/
def adjoints (t : Tape κ α) : Array α :=
  t.slots.map (·.adjoint)

/-- The weights of all edges. -/
def weights (t : Tape κ α) : Array α :=
  t.edges.map (·.weight)

/-- Two tapes that differ in what sweeps write only. -/
structure SamePlan (t u : Tape κ α) : Prop where
  dimension : u.dimension = t.dimension
  ops : u.slots.map (·.op) = t.slots.map (·.op)
  inputs : u.slots.map (·.inputs) = t.slots.map (·.inputs)
  sources : u.edges.map (·.source) = t.edges.map (·.source)
  callbacks : u.callbacks = t.callbacks
  const : ∀ (i : Nat) (s : Slot κ α), t.slots[i]? = some s → s.op = .const →
    u.slots[i]?.map (·.value) = some s.value
  isWellFormed : u.isWellFormed = t.isWellFormed

/-- The sweeps that write no value. -/
def Call.keepsValues : Call α → Bool
  | .reverse => true
  | .forward _ | .forwardWithWeights _ | .evaluate _ | .differentiate _ _ => false

/-- The sweeps that write no weight. -/
def Call.keepsWeights : Call α → Bool
  | .forward _ | .evaluate _ | .reverse => true
  | .forwardWithWeights _ | .differentiate _ _ => false

/-- The sweeps that write no adjoint. -/
def Call.keepsAdjoints : Call α → Bool
  | .forward _ | .evaluate _ | .forwardWithWeights _ => true
  | .reverse | .differentiate _ _ => false

end Defs

section Plans

variable [Exponent κ] [Scalar κ α] {t u : Tape κ α}

/-- Tapes with one plan differ in what sweeps write only. -/
theorem samePlan_of_fresh_eq
    (h : u.fresh = t.fresh) :
    t.SamePlan u := by
  have hslots : ∀ {β : Type} (f : Slot κ α → β), (∀ s, f s.fresh = f s) →
      u.slots.map f = t.slots.map f := by
    intro β f hf
    have hmap := congrArg (fun t : Tape κ α => t.slots.map f) h
    simpa [fresh, Function.comp_def, hf] using hmap
  constructor
  · exact dimension_of_fresh_eq h
  · exact hslots (·.op) fun _ => rfl
  · exact hslots (·.inputs) fun _ => rfl
  · exact map_source_of_fresh_eq h
  · exact callbacks_of_fresh_eq h
  · intro i s hs hop
    obtain ⟨r, hr, -, -, hvalue⟩ := slot_of_fresh_eq h.symm hs
    rw [hr, Option.map_some, hvalue (by rw [hop]; rfl)]
  · exact isWellFormed_of_fresh_eq h

end Plans

section Writes

variable (t : Tape κ α)

theorem adjoints_setValue (i : Nat) (v : α) :
    (t.setValue i v).adjoints = t.adjoints :=
  map_modify_eq t.slots i (fun s => { s with value := v }) (·.adjoint) fun _ _ => rfl

theorem adjoints_setPoint (point : List α) :
    (t.setPoint point).adjoints = t.adjoints := by
  apply Array.ext_getElem?
  intro i
  rw [adjoints, adjoints, Array.getElem?_map, Array.getElem?_map]
  by_cases hi : i < point.length
  · rw [slots_setPoint_lt t (List.getElem?_eq_getElem hi), Option.map_map]
    rfl
  · rw [slots_setPoint_ge t (by omega)]

theorem adjoints_setPartials (i : Nat) (computed : α × List α) :
    (t.setPartials i computed).adjoints = t.adjoints := by
  rw [setPartials, adjoints_setValue, adjoints, slots_setWeights, adjoints]

variable [Scalar κ α]

theorem values_addAdjoints (amounts : List (Nat × α)) :
    (t.addAdjoints amounts).values = t.values := by
  apply Array.ext_getElem?
  intro i
  rw [values, values, Array.getElem?_map, Array.getElem?_map, slots_addAdjoints, Option.map_map]
  rfl

theorem values_seed : t.seed.values = t.values := by
  apply Array.ext_getElem?
  intro i
  rw [values, values, Array.getElem?_map, Array.getElem?_map, slots_seed, Option.map_map]
  rfl

end Writes

section Sweeps

variable [Exponent κ] [Scalar κ α] (t : Tape κ α)

/-- A forward sweep writes no edge and no adjoint, whether it fails or not. -/
theorem forward_keeps (point : List α) :
    (t.forward point).2.edges = t.edges ∧ (t.forward point).2.adjoints = t.adjoints := by
  by_cases hp : point.length = t.dimension
  · rw [forward_eq hp]
    refine sweep_preserves (P := fun r : Tape κ α => r.edges = t.edges ∧ r.adjoints = t.adjoints)
      ⟨edges_setPoint t point, adjoints_setPoint t point⟩ ?_
    rintro i - r v ⟨hedges, hadjoints⟩ -
    exact ⟨(edges_setValue r i v).trans hedges, (adjoints_setValue r i v).trans hadjoints⟩
  · rw [forward_of_length_ne hp]
    exact ⟨rfl, rfl⟩

/-- A forward sweep with weights writes no adjoint. -/
theorem forwardWithWeights_keeps (point : List α) :
    (t.forwardWithWeights point).2.adjoints = t.adjoints := by
  by_cases hp : point.length = t.dimension
  · rw [forwardWithWeights_eq hp]
    refine sweep_preserves (P := fun r : Tape κ α => r.adjoints = t.adjoints)
      (adjoints_setPoint t point) ?_
    rintro i - r computed hadjoints -
    exact (adjoints_setPartials r i computed).trans hadjoints
  · rw [forwardWithWeights_of_length_ne hp]

omit [Exponent κ] in
/-- A reverse sweep writes no edge and no value. -/
theorem reverse_keeps :
    t.reverse.2.edges = t.edges ∧ t.reverse.2.values = t.values := by
  rw [reverse_eq]
  refine sweep_preserves (P := fun r : Tape κ α => r.edges = t.edges ∧ r.values = t.values)
    ⟨rfl, values_seed t⟩ ?_
  rintro i - r amounts ⟨hedges, hvalues⟩ -
  exact ⟨hedges, (values_addAdjoints r amounts).trans hvalues⟩

/-- Evaluating is a forward sweep. -/
theorem after_evaluate (point : List α) :
    t.after (.evaluate point) = t.after (.forward point) := by
  rw [after, after, evaluate]
  split <;> rename_i h <;> rw [h]

variable {t}

theorem values_after
    {call : Call α}
    (h : call.keepsValues = true) :
    (t.after call).values = t.values := by
  cases call with
  | reverse => exact (reverse_keeps t).2
  | _ => cases h

theorem weights_after
    {call : Call α}
    (h : call.keepsWeights = true) :
    (t.after call).weights = t.weights := by
  rw [weights, weights]
  cases call with
  | forward point => rw [after, (forward_keeps t point).1]
  | evaluate point => rw [after_evaluate, after, (forward_keeps t point).1]
  | reverse => rw [after, (reverse_keeps t).1]
  | _ => cases h

theorem adjoints_after
    {call : Call α}
    (h : call.keepsAdjoints = true) :
    (t.after call).adjoints = t.adjoints := by
  cases call with
  | forward point => exact (forward_keeps t point).2
  | evaluate point =>
      rw [after_evaluate]
      exact (forward_keeps t point).2
  | forwardWithWeights point => exact forwardWithWeights_keeps t point
  | _ => cases h

/-- What each sweep of a sequence keeps, the sequence keeps. -/
theorem run_preserves
    {β : Type} {keeps : Call α → Bool} {calls : List (Call α)}
    (view : Tape κ α → β)
    (hstep : ∀ (t : Tape κ α) call, keeps call = true → view (t.after call) = view t)
    (h : ∀ call ∈ calls, keeps call = true) :
    view (t.run calls) = view t := by
  induction calls generalizing t with
  | nil => rfl
  | cons call calls ih =>
      have hrest := ih (t := t.after call) fun c hc => h c (List.mem_cons_of_mem call hc)
      exact hrest.trans (hstep t call (h call List.mem_cons_self))

end Sweeps
end Tape

namespace CompiledTerm

variable [Exponent κ] [Scalar κ α]

section Calls

variable {c : CompiledTerm κ α}

/-- The generated engine runs a program of its own: the tape stays as it is. -/
theorem tape_differentiate
    (h : c.engine = .generated)
    (point : List α) (room : Nat) :
    (c.differentiate point room).2.tape = c.tape ∧
      (c.differentiate point room).2.engine = .generated := by
  by_cases hlen : point.length = c.dimension ∧ room = c.dimension
  · obtain ⟨p, hc⟩ := exists_program h
    rw [differentiate_generated hc hlen.1 hlen.2]
    exact ⟨rfl, rfl⟩
  · obtain ⟨e, he⟩ := exists_differentiate_eq_error (κ := κ) hlen
    rw [he c rfl]
    exact ⟨rfl, h⟩

theorem tape_evaluate
    (h : c.engine = .generated)
    (point : List α) :
    (c.evaluate point).2.tape = c.tape ∧ (c.evaluate point).2.engine = .generated := by
  by_cases hlen : point.length = c.dimension
  · obtain ⟨p, hc⟩ := exists_program h
    rw [evaluate_generated hc hlen]
    exact ⟨rfl, rfl⟩
  · rw [evaluate_of_length_ne hlen]
    exact ⟨rfl, h⟩

theorem tape_gradientBatch
    (h : c.engine = .generated)
    (points : List (List α)) :
    (c.gradientBatch points).2.tape = c.tape ∧
      (c.gradientBatch points).2.engine = .generated := by
  induction points generalizing c with
  | nil => exact ⟨rfl, h⟩
  | cons p ps ih =>
      obtain ⟨htape, hengine⟩ := tape_differentiate h p c.dimension
      rw [gradientBatch, gradient]
      rcases hd : c.differentiate p c.dimension with ⟨o, d⟩
      rw [hd] at htape hengine
      cases o with
      | error e => exact ⟨htape, hengine⟩
      | ok vg =>
          obtain ⟨htape', hengine'⟩ := ih hengine
          rcases hb : d.gradientBatch ps with ⟨o, b⟩
          rw [hb] at htape' hengine'
          simp only [hb]
          cases o <;> exact ⟨htape'.trans htape, hengine'⟩

theorem tape_after
    (h : c.engine = .generated)
    (call : Call α) :
    (c.after call).tape = c.tape ∧ (c.after call).engine = .generated := by
  cases call with
  | evaluate point => exact tape_evaluate h point
  | differentiate point room => exact tape_differentiate h point room
  | gradient point => exact tape_differentiate h point c.dimension
  | gradientBatch points => exact tape_gradientBatch h points
  | gradientBatchParallel points => exact ⟨rfl, h⟩
  | evaluateBatchParallel points => exact ⟨rfl, h⟩

theorem tape_foldl_after
    (h : c.engine = .generated)
    (calls : List (Call α)) :
    (calls.foldl after c).tape = c.tape := by
  induction calls generalizing c with
  | nil => rfl
  | cons call calls ih =>
      obtain ⟨htape, hengine⟩ := tape_after h call
      exact (ih hengine).trans htape

end Calls

section Results

/-- No sequence of sweeps changes a tape in anything but values, adjoints and weights, and of these
it changes only what some sweep of the sequence writes.  No call of the generated engine changes the
tape at all. -/
theorem sweeps_keep_frame :
    (∀ (t : Tape κ α) (calls : List (Tape.Call α)), t.Reachable →
      t.SamePlan (t.run calls) ∧
      ((∀ call ∈ calls, call.keepsValues = true) → (t.run calls).values = t.values) ∧
      ((∀ call ∈ calls, call.keepsWeights = true) → (t.run calls).weights = t.weights) ∧
      ((∀ call ∈ calls, call.keepsAdjoints = true) → (t.run calls).adjoints = t.adjoints)) ∧
    ∀ (c : CompiledTerm κ α) (calls : List (CompiledTerm.Call α)), c.engine = .generated →
      (calls.foldl after c).tape = c.tape := by
  refine ⟨fun t calls ht => ⟨?_, ?_, ?_, ?_⟩, fun c calls h => tape_foldl_after h calls⟩
  · exact Tape.samePlan_of_fresh_eq (Tape.fresh_run ht.sound calls)
  · exact Tape.run_preserves Tape.values fun t call => Tape.values_after
  · exact Tape.run_preserves Tape.weights fun t call => Tape.weights_after
  · exact Tape.run_preserves Tape.adjoints fun t call => Tape.adjoints_after

/-- What differentiating the tape of `x * x + x` at 5 has left is still there after sweeps at other
points, and a program of the tape leaves all of it alone. -/
theorem sweeps_keep_frame_sharedTape :
    let t := sharedTape.run [.differentiate [5] 1]
    t.Reachable ∧ t.SamePlan (t.run [.forwardWithWeights [3], .differentiate [2] 1]) ∧
      (t.run [.reverse, .reverse]).values = #[5, 25, 30] ∧
      (t.run [.forward [3], .reverse, .evaluate [2]]).weights = #[5, 5, 1, 1] ∧
      (t.run [.forward [3], .forwardWithWeights [2]]).adjoints = #[11, 1, 1] ∧
      ∃ c, ofTape sharedTape [0] { engine := .generated } = .ok c ∧
        ([.gradient [4], .evaluate [7, 7]].foldl after c).tape = c.tape := by
  intro t
  have hnew : sharedTape.Reachable := .restored (by cbv) (by cbv) rfl
  have ht : t.Reachable := hnew.run [.differentiate [5] 1]
  have hvalues : t.values = #[5, 25, 30] := by decide +kernel
  have hweights : t.weights = #[5, 5, 1, 1] := by decide +kernel
  have hadjoints : t.adjoints = #[11, 1, 1] := by decide +kernel
  obtain ⟨c, hc⟩ : ∃ c, ofTape sharedTape [0] { engine := .generated } = .ok c :=
    ⟨_, rfl⟩
  have hengine : c.engine = .generated := (of_assemble (ofTape_eq_ok_iff.1 hc).2.2).2
  clear_value t
  obtain ⟨htapes, hprograms⟩ := sweeps_keep_frame (κ := Nat) (α := Int)
  refine ⟨ht, (htapes t _ ht).1, ?_, ?_, ?_, ?_⟩
  · exact ((htapes t _ ht).2.1 (by decide)).trans hvalues
  · exact ((htapes t _ ht).2.2.1 (by decide)).trans hweights
  · exact ((htapes t _ ht).2.2.2 (by decide)).trans hadjoints
  · exact ⟨c, hc, hprograms c _ hengine⟩

end Results
end CompiledTerm
end ReverseMode
