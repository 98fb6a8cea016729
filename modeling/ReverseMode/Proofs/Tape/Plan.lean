import Mathlib.Data.List.Basic
import ReverseMode.Proofs.Outcome
import ReverseMode.Proofs.Sweep
import ReverseMode.Proofs.Tape.Storage

/-!
# The plan of a tape

`Tape.fresh` is a tape with the storage that building it leaves: every value 0 but those of
constants, every adjoint and every weight 0.  Two tapes have the same plan when they are
fresh alike.

**Results.**
* What two tapes of one plan share: `slot_of_fresh_eq`, `sourcesIn_of_fresh_eq`.
* `Sound` is what every tape that can be built satisfies and every sweep relies on, `Tiled`
  says that its windows do not overlap.  Both are properties of the plan
  (`Sound.of_fresh_eq`, `Tiled.of_fresh_eq`).
* No sweep changes the plan of a sound tape (`fresh_forward`, `fresh_forwardWithWeights`,
  `fresh_reverse`, `fresh_evaluate`, `fresh_differentiate`), whether it fails or not.
-/

namespace ReverseMode

variable {κ α : Type}

namespace Op

/-- The number of operands of an operation that takes a fixed number. -/
def arity? : Op κ → Option Nat
  | input | const => some 0
  | sum | nary _ => none
  | product | termPower | binary _ => some 2
  | constPower _ | exp | ln | unary _ => some 1

/-- Whether the tables have the function that the operation calls. -/
def RegisteredIn (c : Callbacks α) : Op κ → Prop
  | unary h => h < c.unary.size
  | binary h => h < c.binary.size
  | nary h => h < c.nary.size
  | _ => True

/-- An operation with as many operands as it takes. -/
inductive Over {β : Type} : Op κ → List β → Prop where
  | input : Over .input []
  | const : Over .const []
  | sum (as : List β) : Over .sum as
  | product (a b : β) : Over .product [a, b]
  | constPower (k : κ) (a : β) : Over (.constPower k) [a]
  | termPower (a b : β) : Over .termPower [a, b]
  | exp (a : β) : Over .exp [a]
  | ln (a : β) : Over .ln [a]
  | unary (h : Nat) (a : β) : Over (.unary h) [a]
  | binary (h : Nat) (a b : β) : Over (.binary h) [a, b]
  | nary (h : Nat) (as : List β) : Over (.nary h) as

theorem Over.of_arity
    {β : Type} {op : Op κ} {as : List β}
    (h : ∀ n, op.arity? = some n → as.length = n) :
    op.Over as := by
  cases op with
  | sum => exact .sum as
  | nary n => exact .nary n as
  | input =>
      obtain rfl := List.length_eq_zero_iff.1 (h 0 rfl)
      exact .input
  | const =>
      obtain rfl := List.length_eq_zero_iff.1 (h 0 rfl)
      exact .const
  | product =>
      obtain ⟨a, b, rfl⟩ := List.length_eq_two.1 (h 2 rfl)
      exact .product a b
  | termPower =>
      obtain ⟨a, b, rfl⟩ := List.length_eq_two.1 (h 2 rfl)
      exact .termPower a b
  | binary n =>
      obtain ⟨a, b, rfl⟩ := List.length_eq_two.1 (h 2 rfl)
      exact .binary n a b
  | constPower k =>
      obtain ⟨a, rfl⟩ := List.length_eq_one_iff.1 (h 1 rfl)
      exact .constPower k a
  | exp =>
      obtain ⟨a, rfl⟩ := List.length_eq_one_iff.1 (h 1 rfl)
      exact .exp a
  | ln =>
      obtain ⟨a, rfl⟩ := List.length_eq_one_iff.1 (h 1 rfl)
      exact .ln a
  | unary n =>
      obtain ⟨a, rfl⟩ := List.length_eq_one_iff.1 (h 1 rfl)
      exact .unary n a

theorem Over.map
    {β γ : Type} {op : Op κ} {as : List β}
    (h : op.Over as)
    (f : β → γ) :
    op.Over (as.map f) := by
  cases h <;> constructor

theorem isConst_of_isInput
    {op : Op κ}
    (h : op.isInput = true) :
    op.isConst = false := by
  cases op with
  | input => rfl
  | _ => cases h

theorem eq_of_arity?
    {op : Op κ} {n m : Nat}
    (h : op.accepts n = true)
    (hm : op.arity? = some m) :
    n = m := by
  cases op <;> simp_all [accepts, arity?]

end Op

/-- A slot as building it leaves it. -/
def Slot.fresh [Scalar κ α] (s : Slot κ α) : Slot κ α :=
  { s with value := if s.op.isConst then s.value else 0, adjoint := 0 }

/-- An edge as building it leaves it. -/
def Edge.fresh [Scalar κ α] (e : Edge α) : Edge α :=
  { e with weight := 0 }

/-- What a slot at index `i` of a tape must be for sweeps to make sense of it. -/
structure Slot.Sound (t : Tape κ α) (i : Nat) (s : Slot κ α) : Prop where
  input_iff : s.op.isInput = true ↔ i < t.dimension
  window : s.inputs.stop ≤ t.edges.size
  earlier : ∀ j ∈ t.sourcesIn s.inputs, j < i
  arity : ∀ n, s.op.arity? = some n → (t.sourcesIn s.inputs).length = n

/-- What a slot reads hangs on what lies below it. -/
theorem Slot.Sound.map_sources_congr
    {β : Type} {t : Tape κ α} {i : Nat} {s : Slot κ α} {v w : Nat → β}
    (h : s.Sound t i)
    (hvw : ∀ j < i, v j = w j) :
    (t.sourcesIn s.inputs).map v = (t.sourcesIn s.inputs).map w := by
  apply List.map_congr_left
  intro j hj
  exact hvw j (h.earlier j hj)

theorem Slot.Sound.applied
    {t : Tape κ α} {i : Nat} {s : Slot κ α}
    (h : s.Sound t i) :
    s.op.Over (t.sourcesIn s.inputs) :=
  Op.Over.of_arity h.arity

namespace Tape

/-- The tape with the storage that building it leaves. -/
def fresh [Scalar κ α] (t : Tape κ α) : Tape κ α :=
  { t with slots := t.slots.map Slot.fresh, edges := t.edges.map Edge.fresh }

/-- The functions that the slots call are all registered. -/
def HandlesRegistered (t : Tape κ α) : Prop :=
  ∀ s ∈ t.slots, s.op.RegisteredIn t.callbacks

/-- A tape that calls no functions needs none. -/
theorem handlesRegistered_of_callbackCount
    {t : Tape κ α}
    (h : t.callbackCount = 0) :
    t.HandlesRegistered := by
  rw [callbackCount, Array.countP_eq_zero] at h
  intro s hs
  have hcalls := h s hs
  cases hop : s.op <;> first
    | trivial
    | exact absurd (by rw [hop]; rfl) hcalls

/-- Where no function is registered, none is called. -/
theorem HandlesRegistered.callbackCount_eq_zero
    {t : Tape κ α}
    (h : t.HandlesRegistered)
    (hnone : t.callbacks = {}) :
    t.callbackCount = 0 := by
  rw [callbackCount, Array.countP_eq_zero]
  intro s hs hcalls
  have hop := h s hs
  rw [hnone] at hop
  cases hcase : s.op <;> rw [hcase] at hop hcalls <;> first
    | exact absurd hop (Nat.not_lt_zero _)
    | cases hcalls

/-- The variables come first, windows stay in the edge table, operands come before the slots
that use them, and operations have as many operands as they take. -/
structure Sound (t : Tape κ α) : Prop where
  dimension_le : t.dimension ≤ t.size
  edge_lt : ∀ {p : Nat} {e : Edge α}, t.edges[p]? = some e → e.source < t.size
  slot : ∀ {i : Nat} {s : Slot κ α}, t.slots[i]? = some s → s.Sound t i

/-- Each window ends before the next one starts. -/
def Tiled (t : Tape κ α) : Prop :=
  ∀ (i j : Nat) (s r : Slot κ α), i < j → t.slots[i]? = some s → t.slots[j]? = some r →
    s.inputs.stop ≤ r.inputs.start

/-- The windows of slots that call functions do not overlap. -/
def CallsApart (t : Tape κ α) : Prop :=
  ∀ (i j : Nat) (s r : Slot κ α), i < j → t.slots[i]? = some s → t.slots[j]? = some r →
    s.op.isCallback = true → r.op.isCallback = true → s.inputs.stop ≤ r.inputs.start

theorem Tiled.callsApart
    {t : Tape κ α}
    (h : t.Tiled) :
    t.CallsApart :=
  fun i j s r hij hs hr _ _ => h i j s r hij hs hr

theorem callsApart_of_callbackCount
    {t : Tape κ α}
    (h : t.callbackCount = 0) :
    t.CallsApart := by
  intro i j s r _ hs _ hcalls
  rw [callbackCount, Array.countP_eq_zero] at h
  exact absurd hcalls (h s (Array.mem_of_getElem? hs))

section Sharing

variable [Scalar κ α] {t u : Tape κ α}

theorem dimension_of_fresh_eq (h : t.fresh = u.fresh) : t.dimension = u.dimension := by
  simpa [fresh] using congrArg Tape.dimension h

theorem callbacks_of_fresh_eq (h : t.fresh = u.fresh) : t.callbacks = u.callbacks := by
  simpa [fresh] using congrArg Tape.callbacks h

theorem size_of_fresh_eq (h : t.fresh = u.fresh) : t.size = u.size := by
  simpa [fresh, size] using congrArg (fun t : Tape κ α => t.slots.size) h

theorem size_edges_of_fresh_eq (h : t.fresh = u.fresh) : t.edges.size = u.edges.size := by
  simpa [fresh] using congrArg (fun t : Tape κ α => t.edges.size) h

theorem fresh_fresh (t : Tape κ α) : t.fresh.fresh = t.fresh := by
  have hslot : ∀ s : Slot κ α, s.fresh.fresh = s.fresh := by
    intro s
    simp only [Slot.fresh]
    split <;> rfl
  have hedge : ∀ e : Edge α, e.fresh.fresh = e.fresh := fun _ => rfl
  simp only [fresh, Array.map_map, Function.comp_def, hslot, hedge]

theorem callbackCount_of_fresh_eq (h : t.fresh = u.fresh) : t.callbackCount = u.callbackCount := by
  have hcount : ∀ t : Tape κ α, t.fresh.callbackCount = t.callbackCount := by
    intro t
    rw [callbackCount, fresh, Array.countP_map]
    rfl
  rw [← hcount t, h, hcount u]

/-- Slots of one index in two tapes of one plan differ in their storage only. -/
theorem slot_of_fresh_eq
    {i : Nat} {s : Slot κ α}
    (h : t.fresh = u.fresh)
    (hs : t.slots[i]? = some s) :
    ∃ r, u.slots[i]? = some r ∧ r.op = s.op ∧ r.inputs = s.inputs ∧
      (s.op.isConst = true → r.value = s.value) := by
  have hi : (t.slots.map Slot.fresh)[i]? = (u.slots.map Slot.fresh)[i]? :=
    congrArg (fun t : Tape κ α => t.slots[i]?) h
  rw [Array.getElem?_map, Array.getElem?_map, hs] at hi
  cases hr : u.slots[i]? with
  | none =>
      rw [hr] at hi
      cases hi
  | some r =>
      rw [hr] at hi
      obtain ⟨hop, hval, -, hin⟩ := Slot.mk.inj (Option.some.inj hi)
      refine ⟨r, rfl, hop.symm, hin.symm, fun hc => ?_⟩
      rw [← hop, hc] at hval
      simpa using hval.symm

/-- Two tapes of one plan have slots at the same indices. -/
theorem slot_none_or_some_of_fresh_eq
    (h : t.fresh = u.fresh)
    (i : Nat) :
    (t.slots[i]? = none ∧ u.slots[i]? = none) ∨
      ∃ s r, t.slots[i]? = some s ∧ u.slots[i]? = some r ∧ r.op = s.op ∧
        r.inputs = s.inputs := by
  cases hs : t.slots[i]? with
  | some s =>
      obtain ⟨r, hr, hop, hin, -⟩ := slot_of_fresh_eq h hs
      exact .inr ⟨s, r, rfl, hr, hop, hin⟩
  | none =>
      left
      have hsize : t.slots.size = u.slots.size := size_of_fresh_eq h
      rw [Array.getElem?_eq_none_iff] at hs ⊢
      exact ⟨rfl, by omega⟩

/-- Edges of one index in two tapes of one plan name the same slot. -/
theorem map_source_of_fresh_eq
    (h : t.fresh = u.fresh) :
    t.edges.map (·.source) = u.edges.map (·.source) := by
  have he : t.edges.map Edge.fresh = u.edges.map Edge.fresh :=
    congrArg (fun t : Tape κ α => t.edges) h
  have := congrArg (fun es : Array (Edge α) => es.map (·.source)) he
  simpa [Function.comp_def, Edge.fresh] using this

theorem sourcesIn_of_fresh_eq
    (h : t.fresh = u.fresh)
    (w : Window) :
    t.sourcesIn w = u.sourcesIn w := by
  have := congrArg (fun es : Array Nat => (es.extract w.start w.stop).toList)
    (map_source_of_fresh_eq h)
  simpa [sourcesIn, edgeList] using this

theorem Sound.of_fresh_eq
    (ht : t.Sound)
    (h : t.fresh = u.fresh) :
    u.Sound := by
  constructor
  · rw [← dimension_of_fresh_eq h, ← size_of_fresh_eq h]
    exact ht.dimension_le
  · intro p e he
    have hsrc : (t.edges.map (·.source))[p]? = some e.source := by
      rw [map_source_of_fresh_eq h, Array.getElem?_map, he]
      rfl
    rw [Array.getElem?_map] at hsrc
    obtain ⟨e', he', hee⟩ := Option.map_eq_some_iff.1 hsrc
    rw [← hee, ← size_of_fresh_eq h]
    exact ht.edge_lt he'
  · intro i r hr
    obtain ⟨s, hs, hop, hin, -⟩ := slot_of_fresh_eq h.symm hr
    have hss := ht.slot hs
    constructor
    · rw [← hop, ← dimension_of_fresh_eq h]
      exact hss.input_iff
    · rw [← size_edges_of_fresh_eq h, ← hin]
      exact hss.window
    · rw [← sourcesIn_of_fresh_eq h, ← hin]
      exact hss.earlier
    · rw [← sourcesIn_of_fresh_eq h, ← hop, ← hin]
      exact hss.arity

theorem Tiled.of_fresh_eq
    (ht : t.Tiled)
    (h : t.fresh = u.fresh) :
    u.Tiled := by
  intro i j s r hij hs hr
  obtain ⟨s', hs', -, hsin, -⟩ := slot_of_fresh_eq h.symm hs
  obtain ⟨r', hr', -, hrin, -⟩ := slot_of_fresh_eq h.symm hr
  rw [← hsin, ← hrin]
  exact ht i j s' r' hij hs' hr'

end Sharing

section Writes

variable [Scalar κ α] (t : Tape κ α)

theorem fresh_setValue
    {i : Nat} {v : α}
    (h : ∀ s, t.slots[i]? = some s → s.op.isConst = true → v = s.value) :
    (t.setValue i v).fresh = t.fresh := by
  have hs : (t.setValue i v).slots.map Slot.fresh = t.slots.map Slot.fresh := by
    refine map_modify_eq t.slots i (fun s => { s with value := v }) Slot.fresh fun s hs => ?_
    cases hc : s.op.isConst with
    | true => simp [Slot.fresh, hc, h s hs hc]
    | false => simp [Slot.fresh, hc]
  exact congrArg (fun slots => ({ t.fresh with slots } : Tape κ α)) hs

theorem fresh_setPoint
    {point : List α}
    (h : ∀ i s, i < point.length → t.slots[i]? = some s → s.op.isConst = false) :
    (t.setPoint point).fresh = t.fresh := by
  have hs : (t.setPoint point).slots.map Slot.fresh = t.slots.map Slot.fresh := by
    apply Array.ext_getElem?
    intro i
    rw [Array.getElem?_map, Array.getElem?_map]
    by_cases hi : i < point.length
    · rw [slots_setPoint_lt t (List.getElem?_eq_getElem hi)]
      cases hs : t.slots[i]? with
      | none => rfl
      | some s => simp [Slot.fresh, h i s hi hs]
    · rw [slots_setPoint_ge t (by omega)]
  exact congrArg (fun slots => ({ t.fresh with slots } : Tape κ α)) hs

theorem fresh_setWeights (start : Nat) (ws : List α) :
    (t.setWeights start ws).fresh = t.fresh := by
  induction ws generalizing t start with
  | nil => rfl
  | cons w ws ih =>
      rw [setWeights, ih]
      have he : (t.edges.modify start fun e => { e with weight := w }).map Edge.fresh =
          t.edges.map Edge.fresh :=
        map_modify_eq _ _ _ _ fun e _ => rfl
      exact congrArg (fun edges => ({ t.fresh with edges } : Tape κ α)) he

theorem fresh_setPartials
    {i : Nat} {computed : α × List α}
    (h : ∀ s, t.slots[i]? = some s → s.op.isConst = true → computed.1 = s.value) :
    (t.setPartials i computed).fresh = t.fresh := by
  rw [setPartials, fresh_setValue, fresh_setWeights]
  rw [slots_setWeights]
  exact h

theorem fresh_addAdjoints (amounts : List (Nat × α)) :
    (t.addAdjoints amounts).fresh = t.fresh := by
  have hs : (t.addAdjoints amounts).slots.map Slot.fresh = t.slots.map Slot.fresh := by
    apply Array.ext_getElem?
    intro i
    rw [Array.getElem?_map, Array.getElem?_map, slots_addAdjoints, Option.map_map]
    rfl
  exact congrArg (fun slots => ({ t.fresh with slots } : Tape κ α)) hs

theorem fresh_seed : t.seed.fresh = t.fresh := by
  have hs : t.seed.slots.map Slot.fresh = t.slots.map Slot.fresh := by
    apply Array.ext_getElem?
    intro i
    rw [Array.getElem?_map, Array.getElem?_map, slots_seed, Option.map_map]
    rfl
  exact congrArg (fun slots => ({ t.fresh with slots } : Tape κ α)) hs

end Writes

section Sweeps

variable {t : Tape κ α}

theorem computed_setPoint (point : List α) :
    (t.setPoint point).computed = t.computed := by
  rw [computed, computed, size_setPoint]
  rfl

variable [Scalar κ α]

theorem Sound.fresh_setPoint
    (ht : t.Sound)
    {point : List α}
    (hp : point.length = t.dimension) :
    (t.setPoint point).fresh = t.fresh := by
  apply Tape.fresh_setPoint
  intro i s hi hs
  have hin := (ht.slot hs).input_iff.2 (hp ▸ hi)
  cases hop : s.op <;> rw [hop] at hin <;> first
    | rfl
    | cases hin

theorem computed_seed : t.seed.computed = t.computed := by
  rw [computed, computed, size_seed]
  rfl

theorem reverse_eq (t : Tape κ α) :
    t.reverse =
      sweep contributions (fun t _ amounts => t.addAdjoints amounts) t.computed.reverse
        t.seed := by
  rw [reverse, computed_seed]

theorem fresh_reverse (t : Tape κ α) :
    t.reverse.2.fresh = t.fresh := by
  rw [reverse_eq]
  refine sweep_preserves (P := fun r : Tape κ α => r.fresh = t.fresh) ?_ ?_
  · exact fresh_seed t
  · intro i _ r amounts hr _
    rw [fresh_addAdjoints]
    exact hr

variable [Exponent κ]

/-- A constant is computed to be what it is. -/
theorem computedValue_const
    {i : Nat} {v : α} {s : Slot κ α}
    (h : t.computedValue i = .ok v)
    (hs : t.slots[i]? = some s)
    (hc : s.op.isConst = true) :
    v = s.value := by
  rw [computedValue, slot_eq_ok hs, ok_bind] at h
  obtain ⟨args, -, h⟩ := bind_eq_ok_iff.1 h
  cases hop : s.op <;> rw [hop] at h hc <;> first
    | exact (Except.ok.inj h).symm
    | cases hc

/-- The value that comes with partials is the one that is computed without them. -/
theorem computedValue_of_computedPartials
    {i : Nat} {computed : α × List α}
    (h : t.computedPartials i = .ok computed) :
    t.computedValue i = .ok computed.1 := by
  rw [computedPartials] at h
  obtain ⟨s, hs, h⟩ := bind_eq_ok_iff.1 h
  obtain ⟨args, hargs, h⟩ := bind_eq_ok_iff.1 h
  obtain ⟨v, hv, h⟩ := bind_eq_ok_iff.1 h
  obtain ⟨ws, -, h⟩ := bind_eq_ok_iff.1 h
  obtain rfl : (v, ws) = computed := Except.ok.inj h
  rw [computedValue, hs, ok_bind, hargs, ok_bind, hv]

theorem forward_eq
    {point : List α}
    (hp : point.length = t.dimension) :
    t.forward point = sweep computedValue setValue t.computed (t.setPoint point) := by
  simp only [forward, if_pos hp, computed_setPoint]

theorem forward_of_length_ne
    {point : List α}
    (hp : point.length ≠ t.dimension) :
    t.forward point = (.error .pointLength, t) := by
  rw [forward, if_neg hp]

theorem forwardWithWeights_eq
    {point : List α}
    (hp : point.length = t.dimension) :
    t.forwardWithWeights point =
      sweep computedPartials setPartials t.computed (t.setPoint point) := by
  simp only [forwardWithWeights, if_pos hp, computed_setPoint]

theorem forwardWithWeights_of_length_ne
    {point : List α}
    (hp : point.length ≠ t.dimension) :
    t.forwardWithWeights point = (.error .pointLength, t) := by
  rw [forwardWithWeights, if_neg hp]

theorem fresh_forward
    (ht : t.Sound)
    (point : List α) :
    (t.forward point).2.fresh = t.fresh := by
  by_cases hp : point.length = t.dimension
  · rw [forward_eq hp]
    refine sweep_preserves (P := fun r : Tape κ α => r.fresh = t.fresh) ?_ ?_
    · exact ht.fresh_setPoint hp
    · intro i _ r v hr hv
      rw [fresh_setValue r fun s hs hc => computedValue_const hv hs hc]
      exact hr
  · rw [forward_of_length_ne hp]

theorem fresh_forwardWithWeights
    (ht : t.Sound)
    (point : List α) :
    (t.forwardWithWeights point).2.fresh = t.fresh := by
  by_cases hp : point.length = t.dimension
  · rw [forwardWithWeights_eq hp]
    refine sweep_preserves (P := fun r : Tape κ α => r.fresh = t.fresh) ?_ ?_
    · exact ht.fresh_setPoint hp
    · intro i _ r computed hr hv
      have hval := computedValue_of_computedPartials hv
      rw [fresh_setPartials r fun s hs hc => computedValue_const hval hs hc]
      exact hr
  · rw [forwardWithWeights_of_length_ne hp]

theorem fresh_evaluate
    (ht : t.Sound)
    (point : List α) :
    (t.evaluate point).2.fresh = t.fresh := by
  have h := fresh_forward ht point
  rw [evaluate]
  split <;> simp_all

theorem fresh_differentiate
    (ht : t.Sound)
    (point : List α) (room : Nat) :
    (t.differentiate point room).2.fresh = t.fresh := by
  have h := fresh_forwardWithWeights ht point
  rw [differentiate]
  split
  · split
    · simp_all
    · rename_i r hr
      have hrev := fresh_reverse r
      rw [hr] at h
      split <;> simp_all
  · rfl

end Sweeps
end Tape
end ReverseMode
