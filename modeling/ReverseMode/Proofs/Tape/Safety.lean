import ReverseMode.Proofs.Lowering.Output
import ReverseMode.Proofs.Tape.History

/-!
# Safe tapes

A sweep that reads past a table or meets an operation where it cannot be is a fault.  A write past
a table is not: here it would only be lost.  `Tape.Safe` rules out both.  It says of every sweep of
a tape that all its reads succeed and that all its writes fall into their tables.

**Argument.**  What a sweep relies on is a matter of the plan: windows in the edge table, operands
before the slots that use them, functions that are registered.  No write of a sweep changes the
plan, so each place finds what the first one found.

**Results.**
* `Sound.safe`: a sound tape with an output whose functions are registered is safe.
* `Accepted.safe`: so is every tape that the library makes or lets pass.
-/

namespace ReverseMode
namespace Tape

variable {κ α : Type} [Exponent κ] [Scalar κ α]
variable {t : Tape κ α}

section Defs

/-- There is a slot for the value. -/
def ValueFits (t : Tape κ α) (i : Nat) (_ : α) : Prop :=
  i < t.size

/-- There is a slot for the value, and its window is in the edge table and has one edge for each
weight. -/
def PartialsFit (t : Tape κ α) (i : Nat) (computed : α × List α) : Prop :=
  ∃ s, t.slots[i]? = some s ∧ s.inputs.stop ≤ t.edges.size ∧
    computed.2.length = s.inputs.stop - s.inputs.start

/-- There are slots for all amounts. -/
def AmountsFit (t : Tape κ α) (_ : Nat) (amounts : List (Nat × α)) : Prop :=
  ∀ a ∈ amounts, a.1 < t.size

/-- A tape whose sweeps neither fail nor write past a table. -/
structure Safe (t : Tape κ α) : Prop where
  /-- There is an output to seed and to return. -/
  nonempty : 0 < t.size
  /-- The variables have slots, to which points are written and from which gradients are read. -/
  dimension_le : t.dimension ≤ t.size
  forward : ∀ point, point.length = t.dimension →
    SafeSweep computedValue setValue ValueFits t.computed (t.setPoint point) ∧
      (t.forward point).1 = .ok ()
  forwardWithWeights : ∀ point, point.length = t.dimension →
    SafeSweep computedPartials setPartials PartialsFit t.computed (t.setPoint point) ∧
      (t.forwardWithWeights point).1 = .ok ()
  reverse :
    SafeSweep contributions (fun t _ amounts => t.addAdjoints amounts) AmountsFit
        t.computed.reverse t.seed ∧
      t.reverse.1 = .ok ()
  evaluate : ∀ point, point.length = t.dimension → ∃ x, (t.evaluate point).1 = .ok x
  differentiate : ∀ point, point.length = t.dimension →
    ∃ x gradient, (t.differentiate point t.dimension).1 = .ok (x, gradient) ∧
      gradient.length = t.dimension

end Defs

section Sweeps

variable {u : Tape κ α} {point : List α}

omit [Exponent κ] in
/-- A computed place of a plan, on any tape of the plan. -/
theorem exists_slot_of_mem_computed
    {i : Nat}
    (ht : t.Sound)
    (hu : u.fresh = t.fresh)
    (hi : i ∈ t.computed) :
    ∃ s, u.slots[i]? = some s ∧ u.dimension ≤ i := by
  have hsize := size_of_fresh_eq hu
  have hdim := dimension_of_fresh_eq hu
  have hle := ht.dimension_le
  obtain ⟨hlow, hhigh⟩ := mem_computed.1 hi
  obtain ⟨s, hs⟩ := exists_slot (t := u) (i := i) (by omega)
  exact ⟨s, hs, by omega⟩

theorem Sound.safe_forward
    (ht : t.Sound)
    (hreg : t.HandlesRegistered)
    (hp : point.length = t.dimension) :
    SafeSweep computedValue setValue ValueFits t.computed (t.setPoint point) := by
  refine safeSweep_of_invariant (P := fun u => u.fresh = t.fresh) (ht.fresh_setPoint hp) ?_
  intro i hi u hu
  obtain ⟨s, hs, hlow⟩ := exists_slot_of_mem_computed ht hu hi
  have hread := computedValue_eq_ok (ht.of_fresh_eq hu.symm) (hreg.of_fresh_eq hu.symm) hs hlow
  refine ⟨_, hread, lt_size_of_slot hs, ?_⟩
  rw [fresh_setValue u fun _ => computedValue_const hread]
  exact hu

theorem Sound.safe_forwardWithWeights
    (ht : t.Sound)
    (hreg : t.HandlesRegistered)
    (hp : point.length = t.dimension) :
    SafeSweep computedPartials setPartials PartialsFit t.computed (t.setPoint point) := by
  refine safeSweep_of_invariant (P := fun u => u.fresh = t.fresh) (ht.fresh_setPoint hp) ?_
  intro i hi u hu
  obtain ⟨s, hs, hlow⟩ := exists_slot_of_mem_computed ht hu hi
  have husound := ht.of_fresh_eq hu.symm
  obtain ⟨x, -, hread⟩ := computedPartials_eq_ok husound (hreg.of_fresh_eq hu.symm) hs hlow
  have hfits : PartialsFit u i _ :=
    ⟨s, hs, (husound.slot hs).window, length_of_computedPartials husound hs hread⟩
  refine ⟨_, hread, hfits, ?_⟩
  rw [fresh_setPartials u fun _ => computedValue_const (computedValue_of_computedPartials hread)]
  exact hu

omit [Exponent κ] in
theorem Sound.safe_reverse
    (ht : t.Sound) :
    SafeSweep contributions (fun (t : Tape κ α) _ amounts => t.addAdjoints amounts) AmountsFit
      t.computed.reverse t.seed := by
  refine safeSweep_of_invariant (P := fun u => u.fresh = t.fresh) (fresh_seed t) ?_
  intro i hi u hu
  obtain ⟨s, hs, -⟩ := exists_slot_of_mem_computed ht hu (List.mem_reverse.1 hi)
  have husound := ht.of_fresh_eq hu.symm
  have hfits : AmountsFit u i ((u.links i).map fun l => (l.1, u.adjoint i * l.2)) := by
    intro a ha
    obtain ⟨l, hl, rfl⟩ := List.mem_map.1 ha
    have hlt := lt_of_mem_links husound hl
    exact Nat.lt_trans hlt (lt_size_of_slot hs)
  refine ⟨_, contributions_eq_ok husound hs, hfits, ?_⟩
  rw [fresh_addAdjoints]
  exact hu

end Sweeps

section Results

/-- Plan, functions and output suffice: a sound tape is safe whatever its storage holds. -/
theorem Sound.safe
    (ht : t.Sound)
    (hreg : t.HandlesRegistered)
    (hpos : 0 < t.size) :
    t.Safe := by
  have hforward : ∀ point, point.length = t.dimension → (t.forward point).1 = .ok () := by
    intro point hp
    rw [forward_eq hp]
    exact (ht.safe_forward hreg hp).sweep_eq_ok
  have hweights : ∀ point, point.length = t.dimension →
      (t.forwardWithWeights point).1 = .ok () := by
    intro point hp
    rw [forwardWithWeights_eq hp]
    exact (ht.safe_forwardWithWeights hreg hp).sweep_eq_ok
  have hreverse : ∀ {u : Tape κ α}, u.Sound → u.reverse.1 = .ok () := by
    intro u hu
    rw [reverse_eq]
    exact hu.safe_reverse.sweep_eq_ok
  constructor
  · exact hpos
  · exact ht.dimension_le
  · exact fun point hp => ⟨ht.safe_forward hreg hp, hforward point hp⟩
  · exact fun point hp => ⟨ht.safe_forwardWithWeights hreg hp, hweights point hp⟩
  · exact ⟨ht.safe_reverse, hreverse ht⟩
  · intro point hp
    obtain ⟨u, hu⟩ : ∃ u, t.forward point = (.ok (), u) := ⟨_, Prod.ext (hforward point hp) rfl⟩
    have hfresh : u.fresh = t.fresh := by simpa only [hu] using fresh_forward ht point
    have hsize := size_of_fresh_eq hfresh
    rw [evaluate, hu]
    exact ⟨_, outputValue_eq (by omega)⟩
  · intro point hp
    obtain ⟨u, hu⟩ : ∃ u, t.forwardWithWeights point = (.ok (), u) :=
      ⟨_, Prod.ext (hweights point hp) rfl⟩
    have hufresh : u.fresh = t.fresh := by simpa only [hu] using fresh_forwardWithWeights ht point
    obtain ⟨w, hw⟩ : ∃ w, u.reverse = (.ok (), w) :=
      ⟨_, Prod.ext (hreverse (ht.of_fresh_eq hufresh.symm)) rfl⟩
    have hwfresh : w.fresh = u.fresh := by simpa only [hw] using fresh_reverse u
    have hfresh := hwfresh.trans hufresh
    have hsize := size_of_fresh_eq hfresh
    have hdim := dimension_of_fresh_eq hfresh
    have hle := ht.dimension_le
    refine ⟨w.value (w.size - 1), w.gradient, ?_, ?_⟩
    · simp only [differentiate, if_pos, hu, hw, outputValue_eq (t := w) (by omega), map_ok]
    · rw [gradient_eq (by omega), List.length_map, List.length_range, hdim]

end Results

section Accepted

/-- The tapes that are let through to the engines: those made from terms, those restored from data,
and those that were put together by accepted calls, if they have a slot and the functions that they
call are registered.  Their edge tables may be longer than 32-bit offsets reach. -/
inductive Accepted : Tape κ α → Prop where
  | ofTerm {g : Graph κ α} {root : g.Term} {vs : List g.Variable} {l : Lowered κ α} :
      Tape.ofTerm g root vs = .ok l → Accepted l.tape
  | restored {t : Tape κ α} :
      t.isWellFormed = true → t.callbackCount = 0 → t.callbacks = {} → Accepted t
  | assembled {t : Tape κ α} :
      t.Reachable → 0 < t.size → t.HandlesRegistered → Accepted t

theorem Accepted.reachable
    (h : t.Accepted) :
    t.Reachable := by
  cases h with
  | ofTerm h => exact .ofTerm h
  | restored hw hcount hnone => exact .restored hw hcount hnone
  | assembled h _ _ => exact h

theorem Accepted.size_pos
    (h : t.Accepted) :
    0 < t.size := by
  cases h with
  | ofTerm h => exact Graph.size_pos_of_ofTerm h
  | restored hw _ _ =>
      rw [isWellFormed, Bool.and_eq_true, decide_eq_true_eq] at hw
      omega
  | assembled _ h _ => exact h

theorem Accepted.handlesRegistered
    (h : t.Accepted) :
    t.HandlesRegistered := by
  cases h with
  | ofTerm h => exact Graph.handlesRegistered_of_ofTerm h
  | restored _ hcount _ => exact handlesRegistered_of_callbackCount hcount
  | assembled _ _ h => exact h

/-- Whatever sweeps leave of an accepted tape is accepted. -/
theorem Accepted.run
    (h : t.Accepted)
    (calls : List (Call α)) :
    (t.run calls).Accepted := by
  have hfresh := fresh_run h.reachable.sound calls
  have hsize := size_of_fresh_eq hfresh
  refine .assembled (h.reachable.run calls) ?_ (h.handlesRegistered.of_fresh_eq hfresh.symm)
  rw [hsize]
  exact h.size_pos

theorem Accepted.safe
    (h : t.Accepted) :
    t.Safe :=
  h.reachable.sound.safe h.handlesRegistered h.size_pos

/-- What decoding lets pass is accepted. -/
theorem accepted_of_decode
    {d : Data} {t : Tape Float Float}
    (h : decode d = .ok t) :
    t.Accepted := by
  obtain ⟨hw, hcount, hnone⟩ := restored_of_decode h
  exact .restored hw hcount hnone

end Accepted
end Tape
end ReverseMode
