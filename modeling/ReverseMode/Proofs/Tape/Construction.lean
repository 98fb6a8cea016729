import ReverseMode.Proofs.Integer
import ReverseMode.Proofs.Lowering.Emission
import ReverseMode.Proofs.Tape.WellFormed

/-!
# Tapes built call by call

**Input.**  Any sequence of calls that append a slot or register a function.  A call that is
refused leaves the tape as it was.

**Argument.**  The operations of a built tape are those that its accepted calls have pushed, and
the tape is sound and regular.  So the check of its shape is left with what no call looks at: that
some slot is not a variable, and the exponents.

In the other direction a tape that passes the check is built again slot by slot.  `upTo` is what
has been built when the slots below an index are done.  The check of the slot at that index says
that its call is accepted and that its window is the one which the call makes (`perform_rebuild`).

**Results.**
* `ops_build`: the operations of a built tape are those that were pushed.
* `build_rebuild`: the calls read off a well-formed tape build it, with the storage of a new tape.
* `isWellFormed_iff_built`: the check passes the tapes that can be built, with a slot after the
  variables and valid exponents, and it passes no others.
-/

namespace ReverseMode

/-- A call that grows a tape. -/
inductive BuildCall (κ α : Type) where
  | pushInput
  | pushConst (c : α)
  | pushOp (op : Op κ) (sources : List Nat)
  | registerUnary (f : UnaryFn α)
  | registerBinary (f : BinaryFn α)
  | registerNary (f : NaryFn α)

/-- The operation of the slot that a call appends.  Registering a function appends none. -/
def BuildCall.op? {κ α : Type} : BuildCall κ α → Option (Op κ)
  | pushInput => some .input
  | pushConst _ => some .const
  | pushOp op _ => some op
  | registerUnary _ | registerBinary _ | registerNary _ => none

/-- The sources of the slot that a call appends. -/
def BuildCall.sources? {κ α : Type} : BuildCall κ α → Option (List Nat)
  | pushInput | pushConst _ => some []
  | pushOp _ sources => some sources
  | registerUnary _ | registerBinary _ | registerNary _ => none

namespace Tape

variable {κ α : Type} [Scalar κ α]

section Defs

/-- What a call gives: an index or a handle, and the tape that has grown. -/
def perform (t : Tape κ α) : BuildCall κ α → Except (Fault κ) (Nat × Tape κ α)
  | .pushInput => t.pushInput
  | .pushConst c => t.pushConst c
  | .pushOp op sources => t.pushOp op sources
  | .registerUnary f => t.registerUnary f
  | .registerBinary f => t.registerBinary f
  | .registerNary f => t.registerNary f

/-- The tape after a call, which a refused call leaves as it was. -/
def grow (t : Tape κ α) (call : BuildCall κ α) : Tape κ α :=
  match t.perform call with
  | .ok r => r.2
  | .error _ => t

/-- The tape after a sequence of calls. -/
def build (t : Tape κ α) (calls : List (BuildCall κ α)) : Tape κ α :=
  calls.foldl grow t

/-- The operations that the accepted ones of a sequence of calls push, in their order. -/
def pushed (t : Tape κ α) : List (BuildCall κ α) → List (Op κ)
  | [] => []
  | call :: calls =>
      match t.perform call with
      | .ok r => call.op?.toList ++ r.2.pushed calls
      | .error _ => t.pushed calls

/-- The operations of the slots in their order. -/
def ops (t : Tape κ α) : List (Op κ) :=
  t.slots.toList.map (·.op)

end Defs

section Growing

variable {t u : Tape κ α} {call : BuildCall κ α}

/-- The accepted calls are the building steps. -/
theorem buildStep_of_perform
    {r : Nat × Tape κ α}
    (h : t.perform call = .ok r) :
    BuildStep t r.2 := by
  cases call with
  | pushInput => exact .pushInput h
  | pushConst c => exact .pushConst c h
  | pushOp op sources => exact .pushOp op sources h
  | registerUnary f => exact .registerUnary f h
  | registerBinary f => exact .registerBinary f h
  | registerNary f => exact .registerNary f h

theorem grow_of_perform
    {r : Nat × Tape κ α}
    (h : t.perform call = .ok r) :
    t.grow call = r.2 := by
  rw [grow, h]

theorem build_cons (t : Tape κ α) (call : BuildCall κ α) (calls : List (BuildCall κ α)) :
    t.build (call :: calls) = (t.grow call).build calls := by
  rfl

theorem built_build (t : Tape κ α) (calls : List (BuildCall κ α)) :
    Built t (t.build calls) := by
  induction calls generalizing t with
  | nil => exact .refl
  | cons call calls ih =>
      rw [build_cons]
      cases h : t.perform call with
      | error f =>
          rw [grow, h]
          exact ih t
      | ok r =>
          rw [grow_of_perform h]
          exact .head (buildStep_of_perform h) (ih r.2)

theorem ops_withSlot (t : Tape κ α) (op : Op κ) (v : α) (sources : List Nat) :
    (t.withSlot op v sources).ops = t.ops ++ [op] := by
  simp [ops, slots_withSlot]

/-- An accepted call appends a slot with its operation over its sources, or registers a
function. -/
theorem perform_cases
    {r : Nat × Tape κ α}
    (h : t.perform call = .ok r) :
    (∃ d op v sources, call.op? = some op ∧ call.sources? = some sources ∧
      r.2 = { t with dimension := d }.withSlot op v sources) ∨
      call.op? = none ∧ call.sources? = none ∧ ∃ c, r.2 = { t with callbacks := c } := by
  cases call with
  | pushInput =>
      obtain ⟨-, -, rfl⟩ := pushInput_eq_ok h
      exact .inl ⟨_, _, _, _, rfl, rfl, rfl⟩
  | pushConst c =>
      obtain ⟨-, rfl⟩ := pushSlot_eq_ok h
      exact .inl ⟨t.dimension, _, _, _, rfl, rfl, rfl⟩
  | pushOp op sources =>
      obtain ⟨-, -, -, rfl⟩ := pushOp_eq_ok h
      exact .inl ⟨t.dimension, _, _, _, rfl, rfl, rfl⟩
  | registerUnary f =>
      obtain rfl := registerUnary_eq_ok h
      exact .inr ⟨rfl, rfl, _, rfl⟩
  | registerBinary f =>
      obtain rfl := registerBinary_eq_ok h
      exact .inr ⟨rfl, rfl, _, rfl⟩
  | registerNary f =>
      obtain rfl := registerNary_eq_ok h
      exact .inr ⟨rfl, rfl, _, rfl⟩

/-- An accepted call appends its operation, if it has one. -/
theorem ops_of_perform
    {r : Nat × Tape κ α}
    (h : t.perform call = .ok r) :
    r.2.ops = t.ops ++ call.op?.toList := by
  rcases perform_cases h with ⟨d, op, v, sources, hop, -, htape⟩ | ⟨hop, -, c, htape⟩
  · rw [htape, hop]
    exact ops_withSlot _ _ _ _
  · rw [htape, hop]
    exact (List.append_nil _).symm

/-- The operations of a built tape are those that were pushed. -/
theorem ops_build (t : Tape κ α) (calls : List (BuildCall κ α)) :
    (t.build calls).ops = t.ops ++ t.pushed calls := by
  induction calls generalizing t with
  | nil => exact (List.append_nil _).symm
  | cons call calls ih =>
      rw [build_cons, grow, pushed]
      cases h : t.perform call with
      | error f => exact ih t
      | ok r =>
          show (r.2.build calls).ops = t.ops ++ (call.op?.toList ++ r.2.pushed calls)
          rw [ih, ops_of_perform h, List.append_assoc]

omit [Scalar κ α] in
/-- A sound tape has a slot after its variables if some operation is not that of a variable. -/
theorem Sound.dimension_lt_iff
    (ht : t.Sound) :
    t.dimension < t.size ↔ ∃ op ∈ t.ops, op.isInput = false := by
  constructor
  · intro hlt
    obtain ⟨s, hs⟩ := exists_slot hlt
    refine ⟨s.op, List.mem_map_of_mem (List.mem_of_getElem? (Array.getElem?_toList ▸ hs)), ?_⟩
    rw [← Bool.not_eq_true, (ht.slot hs).input_iff]
    omega
  · rintro ⟨op, hop, hinput⟩
    obtain ⟨s, hs, rfl⟩ := List.mem_map.1 hop
    obtain ⟨i, hi⟩ := List.mem_iff_getElem?.1 hs
    rw [Array.getElem?_toList] at hi
    have hsize := lt_size_of_slot hi
    have hnot := (ht.slot hi).input_iff.not.1 (by simp [hinput])
    omega

end Growing

section Rebuilding

/-- The call that pushes a slot like one of a given tape. -/
def rebuildCall (t : Tape κ α) (s : Slot κ α) : BuildCall κ α :=
  match s.op with
  | .input => .pushInput
  | .const => .pushConst s.value
  | op => .pushOp op (t.sourcesIn s.inputs)

/-- The calls that build a tape like a given one. -/
def rebuild (t : Tape κ α) : List (BuildCall κ α) :=
  t.slots.toList.map t.rebuildCall

/-- What has been built of a tape when the slots below `i` and the edges below `offset` are done. -/
def upTo (t : Tape κ α) (i offset : Nat) : Tape κ α where
  slots := ((t.slots.toList.take i).map Slot.fresh).toArray
  edges := ((t.edges.toList.take offset).map Edge.fresh).toArray
  dimension := min i t.dimension

variable {t : Tape κ α} {i offset : Nat} {s : Slot κ α}

theorem size_upTo
    (h : i ≤ t.size)
    (offset : Nat) :
    (t.upTo i offset).size = i := by
  rw [size] at h
  simp [upTo, size, h]

theorem size_edges_upTo
    (i : Nat)
    (h : offset ≤ t.edges.size) :
    (t.upTo i offset).edges.size = offset := by
  simp [upTo, h]

/-- A window is that of its start and of the number of its edges. -/
theorem ofNat_start (w : Window) :
    Window.ofNat w.start (w.stop - w.start) = w := by
  simp [Window.ofNat, Window.start, Window.stop]

/-- The edges of a window as building it leaves them. -/
theorem map_fresh_edgeList (t : Tape κ α) (w : Window) :
    (t.edgeList w).map Edge.fresh =
      (t.sourcesIn w).map fun source => ({ source, weight := 0 } : Edge α) := by
  rw [sourcesIn, List.map_map]
  rfl

omit [Scalar κ α] in
/-- The edges up to the end of a window are those up to its start and its own. -/
theorem take_stop (t : Tape κ α) (w : Window) :
    t.edges.toList.take w.stop = t.edges.toList.take w.start ++ t.edgeList w := by
  have hstop : w.stop = w.start + (w.stop - w.start) :=
    (Nat.add_sub_cancel' (start_le_stop w)).symm
  conv_lhs => rw [hstop]
  rw [List.take_add, edgeList, Array.toList_extract, List.extract_eq_take_drop]

/-- Pushing the slot at `i` over its sources goes one slot further. -/
theorem withSlot_upTo
    (hs : t.slots[i]? = some s)
    (hstop : s.inputs.stop ≤ t.edges.size) :
    { t.upTo i s.inputs.start with dimension := min (i + 1) t.dimension }.withSlot
        s.op s.fresh.value (t.sourcesIn s.inputs) =
      t.upTo (i + 1) s.inputs.stop := by
  have hle := start_le_stop s.inputs
  have hsize := size_edges_upTo (t := t) i (Nat.le_trans hle hstop)
  have hslots : ({ t.upTo i s.inputs.start with dimension := min (i + 1) t.dimension }.withSlot
      s.op s.fresh.value (t.sourcesIn s.inputs)).slots = (t.upTo (i + 1) s.inputs.stop).slots := by
    rw [slots_withSlot]
    show (t.upTo i s.inputs.start).slots.push
      ⟨s.op, s.fresh.value, 0, Window.ofNat (t.upTo i s.inputs.start).edges.size _⟩ = _
    rw [hsize, length_sourcesIn hstop, ofNat_start]
    simp [upTo, List.take_add_one, hs, Slot.fresh]
  have hedges : ({ t.upTo i s.inputs.start with dimension := min (i + 1) t.dimension }.withSlot
      s.op s.fresh.value (t.sourcesIn s.inputs)).edges = (t.upTo (i + 1) s.inputs.stop).edges := by
    rw [edges_withSlot, newEdges, ← map_fresh_edgeList]
    simp [upTo, take_stop]
  exact congr (congrArg (fun slots edges => ({ slots, edges, dimension := _ } : Tape κ α)) hslots)
    hedges

variable [Exponent κ]

/-- Pushing a slot that passes the check, and is not a variable, goes one slot further. -/
theorem pushSlot_upTo
    (hlimit : i < indexLimit)
    (hs : t.slots[i]? = some s)
    (h : t.slotWellFormed i offset s = true)
    (hnot : s.op.isInput = false) :
    (t.upTo i offset).pushSlot s.op s.fresh.value (t.sourcesIn s.inputs) =
      .ok (i, t.upTo (i + 1) s.inputs.stop) := by
  obtain ⟨-, rfl, hstop, hinput, -, -⟩ := slotWellFormed_iff.1 h
  have hsize := size_upTo (Nat.le_of_lt (lt_size_of_slot hs)) s.inputs.start
  have hwith := withSlot_upTo hs hstop
  -- The dimension is reached, so counting one slot more leaves it alone.
  have hdimension : t.dimension ≤ i := Nat.le_of_not_lt (hinput.not.1 (by simp [hnot]))
  rw [show min (i + 1) t.dimension = min i t.dimension by omega] at hwith
  rw [pushSlot_of_lt (by omega), hsize]
  exact congrArg (fun u => Except.ok (i, u)) hwith

/-- The call of a slot that passes the check is accepted, and goes one slot further. -/
theorem perform_rebuild
    (hlimit : i < indexLimit)
    (hs : t.slots[i]? = some s)
    (h : t.slotWellFormed i offset s = true) :
    (t.upTo i offset).perform (t.rebuildCall s) = .ok (i, t.upTo (i + 1) s.inputs.stop) := by
  have hkeep := pushSlot_upTo hlimit hs h
  obtain ⟨-, rfl, hstop, hinput, haccepts, hsources⟩ := slotWellFormed_iff.1 h
  have hsize := size_upTo (Nat.le_of_lt (lt_size_of_slot hs)) s.inputs.start
  have hlength := length_sourcesIn hstop
  have hnil : s.op.arity? = some 0 → t.sourcesIn s.inputs = [] := by
    intro harity
    rw [← List.length_eq_zero_iff, hlength]
    exact Op.eq_of_arity? haccepts harity
  have hpush : s.op.isInput = false → s.op.isConst = false →
      (t.upTo i s.inputs.start).pushOp s.op (t.sourcesIn s.inputs) =
        .ok (i, t.upTo (i + 1) s.inputs.stop) := by
    intro hnotInput hnotConst
    have hvalue : s.fresh.value = 0 := by simp [Slot.fresh, hnotConst]
    rw [pushOp_of_pushable, ← hvalue, hkeep hnotInput]
    · rw [pushable, hlength, hnotInput, hnotConst, haccepts]
      rfl
    · rw [hsize]
      exact hsources
  rw [rebuildCall]
  split
  · rename_i hop
    have hlt : i < t.dimension := hinput.1 (by rw [hop]; rfl)
    have hvalue : s.fresh.value = 0 := by simp [Slot.fresh, hop, Op.isConst]
    have hdimension : (t.upTo i s.inputs.start).dimension = i := by
      show min i t.dimension = i
      omega
    have hwith := withSlot_upTo hs hstop
    rw [hop, hvalue, hnil (by rw [hop]; rfl), show min (i + 1) t.dimension = i + 1 by omega]
      at hwith
    rw [perform, pushInput_of_lt (hsize.trans hdimension.symm) (by omega), hsize, hdimension]
    exact congrArg (fun u => Except.ok (i, u)) hwith
  · rename_i hop
    have hvalue : s.fresh.value = s.value := by simp [Slot.fresh, hop, Op.isConst]
    have hpushed := hkeep (by rw [hop]; rfl)
    rw [hvalue, hop, hnil (by rw [hop]; rfl)] at hpushed
    exact hpushed
  · rename_i hnotInput hnotConst
    exact hpush (by cases hop : s.op <;> first | rfl | exact absurd hop hnotInput)
      (by cases hop : s.op <;> first | rfl | exact absurd hop hnotConst)

/-- The calls of the slots from `i` on build the rest of a tape. -/
theorem build_rebuildCall
    {rest : List (Slot κ α)}
    (hlimit : t.size ≤ indexLimit)
    (hi : i ≤ t.size)
    (hrest : t.slots.toList.drop i = rest)
    (h : t.tilesFrom rest i offset = true) :
    (t.upTo i offset).build (rest.map t.rebuildCall) = t.upTo t.size t.edges.size := by
  induction rest generalizing i offset with
  | nil =>
      have hoffset : offset = t.edges.size := by simpa [tilesFrom] using h
      have hsize : t.size ≤ i := List.drop_eq_nil_iff.1 hrest
      rw [hoffset, Nat.le_antisymm hi hsize]
      rfl
  | cons s rest ih =>
      rw [tilesFrom_cons] at h
      obtain ⟨hslot, htiles⟩ := h
      have hs : t.slots[i]? = some s := by
        rw [← Array.getElem?_toList, ← Nat.add_zero i, ← List.getElem?_drop, hrest]
        rfl
      have hlt := lt_size_of_slot hs
      have hnext : t.slots.toList.drop (i + 1) = rest := by
        rw [← List.tail_drop, hrest]
        rfl
      rw [List.map_cons, build_cons,
        grow_of_perform (perform_rebuild (Nat.lt_of_lt_of_le hlt hlimit) hs hslot)]
      exact ih hlt hnext htiles

/-- The calls read off a well-formed tape build it, with the storage of a new tape. -/
theorem build_rebuild
    (hlimit : t.size ≤ indexLimit)
    (h : t.isWellFormed = true) :
    ({} : Tape κ α).build t.rebuild = { t.fresh with callbacks := {} } := by
  rw [isWellFormed, Bool.and_eq_true, decide_eq_true_eq] at h
  obtain ⟨hdimension, htiles⟩ := h
  have hstart : t.upTo 0 0 = {} := by simp [upTo]
  have hend : t.upTo t.size t.edges.size = { t.fresh with callbacks := {} } := by
    have hslots : t.slots.toList.take t.size = t.slots.toList :=
      List.take_of_length_le (Nat.le_refl _)
    have hedges : t.edges.toList.take t.edges.size = t.edges.toList :=
      List.take_of_length_le (Nat.le_refl _)
    rw [upTo, hslots, hedges, Nat.min_eq_right (Nat.le_of_lt hdimension), ← List.map_toArray,
      ← List.map_toArray]
    rfl
  rw [← hstart, ← hend]
  exact build_rebuildCall hlimit (Nat.zero_le _) rfl htiles

end Rebuilding

section Shape

variable [Exponent κ]

/-- The check of a built tape's shape passes just when some slot was pushed that is not a variable
and every exponent that was pushed is valid.  A tape that passes the check has the dimension, the
operations, the windows and the sources of one that can be built. -/
theorem isWellFormed_iff_built :
    (∀ calls : List (BuildCall κ α), (build {} calls).edges.size < UInt32.size →
      ((build {} calls).isWellFormed = true ↔
        (∃ op ∈ pushed {} calls, op.isInput = false) ∧
          ∀ k, .constPower k ∈ pushed {} calls → Exponent.valid k = true)) ∧
    (∀ t : Tape κ α, t.size ≤ indexLimit → t.isWellFormed = true →
      ∃ calls, ∃ u : Tape κ α, build {} calls = u ∧ u.dimension = t.dimension ∧
        u.slots.map (·.op) = t.slots.map (·.op) ∧
        u.slots.map (·.inputs) = t.slots.map (·.inputs) ∧
        u.edges.map (·.source) = t.edges.map (·.source)) := by
  constructor
  · intro calls hcap
    have hbuilt := built_build {} calls
    have hsound : (build {} calls : Tape κ α).Sound := sound_empty.built hbuilt
    have hops : pushed {} calls = (build {} calls : Tape κ α).ops := by
      rw [ops_build]
      rfl
    rw [isWellFormed_iff hsound (Regular.built hbuilt hcap), hsound.dimension_lt_iff, hops]
    refine and_congr_right fun _ => ?_
    constructor
    · intro hvalid k hk
      obtain ⟨s, hs, hop⟩ := List.mem_map.1 hk
      have hs := hvalid s (Array.mem_toList_iff.1 hs)
      rwa [hop] at hs
    · intro hvalid s hs
      have hop := List.mem_map_of_mem (f := (·.op)) (Array.mem_toList_iff.2 hs)
      cases h : s.op with
      | constPower k => exact hvalid k (h ▸ hop)
      | _ => rfl
  · intro t hlimit h
    refine ⟨t.rebuild, _, build_rebuild hlimit h, ?_⟩
    simp [fresh, Slot.fresh, Edge.fresh, Function.comp_def]

/-- Five calls, two of which are refused, build a tape that passes the check. -/
theorem isWellFormed_iff_built_refused :
    let calls : List (BuildCall Nat Int) :=
      [.pushInput, .pushOp .product [0, 0], .pushInput, .pushOp .exp [5],
        .pushOp (.constPower 2) [1]]
    (build {} calls).edges.size < UInt32.size ∧
      pushed {} calls = [.input, .product, .constPower 2] ∧
      (build {} calls).isWellFormed = true ∧
        sharedTape.size ≤ indexLimit ∧ sharedTape.isWellFormed = true ∧
          ∃ calls', ∃ u : Tape Nat Int, build {} calls' = u ∧
            u.edges.map (·.source) = #[0, 0, 1, 0] := by
  intro calls
  have hcap : (build {} calls).edges.size < UInt32.size := by decide
  have hpushed : pushed {} calls = [.input, .product, .constPower 2] := by decide
  have hwell : sharedTape.isWellFormed = true := by cbv
  refine ⟨hcap, hpushed, ?_, by decide, hwell, ?_⟩
  · rw [isWellFormed_iff_built.1 calls hcap, hpushed]
    simp [Op.isInput, Exponent.valid]
  · obtain ⟨calls', u, hu, -, -, -, hsources⟩ :=
      isWellFormed_iff_built.2 sharedTape (by decide) hwell
    exact ⟨calls', u, hu, hsources.trans (by simp [sharedTape])⟩

end Shape
end Tape
end ReverseMode
