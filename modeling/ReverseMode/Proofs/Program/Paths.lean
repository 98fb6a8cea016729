import ReverseMode.Proofs.Integer
import ReverseMode.Proofs.Lowering.Overlap
import ReverseMode.Proofs.Program.Safety
import ReverseMode.Proofs.Tape.History
import ReverseMode.Proofs.Tape.Interpreter
import ReverseMode.Proofs.Tape.Partials

/-!
# Two paths to a value

The value of a term at a point is computed in two ways: by a sweep that leaves the edges alone, and by
one that also writes the weights from which a gradient is summed.

**Argument.**  An interpreter goes both ways in place and leaves what the sweeps of its tape do.
These solve the same equations, which have one solution for each plan and point.  A program runs one
value routine on both paths.

**Results.**
* `forward_paths_agree`: both sweeps leave the same values, whatever they start from, the second leaves
  the partials at these values as well, and evaluating returns the value that differentiating does,
  with either engine.
-/

namespace ReverseMode
namespace Tape

variable {κ α : Type} [Exponent κ] [Scalar κ α]
variable {t : Tape κ α} {point : List α}

/-- Both forward sweeps of tapes of one plan, at a point where its values are `x` and the partials for
its edges are `d`.  Before, interpreters may hold any values, adjoints, weights and lists, and
programs any registers. -/
structure PathsAgree (t : Tape κ α) (point : List α) (x d : Nat → α) : Prop where
  /-- The values are those of the operations of the slots. -/
  solved : t.Valuation point x
  /-- The partial for an edge is that of its owner, by its rule or its function. -/
  derived : ∀ k p, t.Owns k p → t.IsPartial x k p (d p)
  forward : ∀ m : Interpreter κ α, m.tape.fresh = t.fresh →
    ∃ m', m.perform (Interpreter.forward point) = (.ok (), m') ∧
      m.tape.forward point = (.ok (), m'.tape) ∧
      ∀ i s, m'.tape.slots[i]? = some s → s.value = x i
  forwardWithWeights : ∀ m : Interpreter κ α, m.tape.fresh = t.fresh →
    ∃ m', m.perform (Interpreter.forwardWithWeights point) = (.ok (), m') ∧
      m.tape.forwardWithWeights point = (.ok (), m'.tape) ∧
      (∀ i s, m'.tape.slots[i]? = some s → s.value = x i) ∧
      ∀ k p, t.Owns k p → ∃ e, m'.tape.edges[p]? = some e ∧ e.weight = d p
  interpreted : ∀ u w : Tape κ α, u.fresh = t.fresh → w.fresh = t.fresh →
    (u.evaluate point).1 = (w.differentiate point t.dimension).1.map Prod.fst ∧
      (0 < t.size → (u.evaluate point).1 = .ok (x (t.size - 1)))
  generated : ∀ p q : Program κ α, Program.Of t p → Program.Of t q →
    ∃ y gradient, (p.evaluate point).1 = .ok y ∧
      (q.differentiate point t.dimension).1 = .ok (y, gradient)

/-- At its values the plan of a sound tape has partials, with which the sweeps agree. -/
theorem Sound.exists_pathsAgree
    {x : Nat → α}
    (ht : t.Sound)
    (hreg : t.HandlesRegistered)
    (hp : point.length = t.dimension)
    (hx : t.Valuation point x) :
    ∃ d, t.PathsAgree point x d := by
  obtain ⟨v, hv, -, hpartials⟩ := hx.forwardWithWeights ht hreg hp rfl
  have hd : ∀ k p, t.Owns k p → t.IsPartial x k p ((v.edges[p]?.map (·.weight)).getD 0) := by
    intro k p howns
    obtain ⟨e, he, hpartial⟩ := hpartials k p howns
    rwa [he]
  refine ⟨fun p => (v.edges[p]?.map (·.weight)).getD 0, hx, hd, ?_, ?_, ?_, ?_⟩
  · intro m hm
    have hsound := ht.of_fresh_eq hm.symm
    have hlen := hp.trans (dimension_of_fresh_eq hm).symm
    obtain ⟨u, hu, hfresh, hval, -⟩ := forward_spec hsound (hreg.of_fresh_eq hm.symm) hlen
    obtain ⟨m', hm', rfl⟩ := Interpreter.perform_forward hsound hlen hu
    refine ⟨m', hm', hu, fun i s hs => ?_⟩
    exact hx.stored_eq ht (hfresh.trans hm) (hval.of_fresh_eq hfresh.symm) hs
  · intro m hm
    obtain ⟨u, hu, hvalues, hweights⟩ := hx.forwardWithWeights ht hreg hp hm
    obtain ⟨m', hm', rfl⟩ := Interpreter.perform_forwardWithWeights (ht.of_fresh_eq hm.symm)
      (hp.trans (dimension_of_fresh_eq hm).symm) hu
    refine ⟨m', hm', hu, hvalues, fun k p howns => ?_⟩
    obtain ⟨e, he, hpartial⟩ := hweights k p howns
    exact ⟨e, he, hpartial.unique (hd k p howns)⟩
  · intro u w hu hw
    rw [← evaluate_of_fresh_eq ht hu point, ← differentiate_of_fresh_eq ht hw point t.dimension]
    refine ⟨evaluate_eq_of_forwardWithWeights ht hp hv, fun hpos => ?_⟩
    obtain ⟨w, hw, -, hval⟩ := evaluate_spec ht hreg hpos hp
    rw [hw, hval.unique ht hx (by omega)]
  · intro p q hof hof'
    obtain ⟨y, gradient, hy, -⟩ := (hof'.safe ht).differentiate point
      (hp.trans hof'.dimension.symm)
    rw [hof'.dimension] at hy
    refine ⟨y, gradient, ?_, hy⟩
    rw [hof.evaluate_eq ht hof' point]
    exact Program.evaluate_of_differentiate hy

/-- At every point the sweep for values and the sweep that also writes weights leave the same value in
every slot, from whatever storage they start; every edge is left with the partial of the last slot
that shows it; and evaluating a tape or a program of it returns the value that differentiating
does.  Each edge is shown by one slot, unless a tape has grown past 2 ^ 32 edges, which 32-bit
offsets do not tell apart. -/
theorem forward_paths_agree
    {t : Tape κ α} {point : List α}
    (hreach : t.Reachable)
    (hreg : t.HandlesRegistered)
    (hp : point.length = t.dimension) :
    (∃ x d, t.PathsAgree point x d) ∧
      (t.edges.size < UInt32.size ∨ t.isWellFormed = true →
        ∀ p < t.edges.size, ∃! k, t.Shows k p) := by
  obtain ⟨u, -, -, hval, -⟩ := forward_spec hreach.sound hreg hp
  obtain ⟨d, hd⟩ := hreach.sound.exists_pathsAgree hreg hp hval
  exact ⟨⟨u.value, d, hd⟩, fun hwindows _ => hreach.existsUnique_shows hwindows⟩

/-- An interpreter of `x * x + x` that was used at 5 and holds lists of other calls, at 3. -/
theorem forward_paths_agree_sharedTape :
    sharedTape.Reachable ∧ sharedTape.HandlesRegistered ∧
      ∃ m' : Interpreter Nat Int,
        ({ tape := sharedTape.run [.differentiate [5] 1], arguments := [7], partials := [8, 9] } :
          Interpreter Nat Int).perform (Interpreter.forwardWithWeights [3]) = (.ok (), m') ∧
        m'.tape.slots.toList.map (·.value) = [3, 9, 12] ∧
        m'.tape.edges.toList.map (·.weight) = [3, 3, 1, 1] ∧
        ∃! k, sharedTape.Shows k 3 := by
  have hreach : sharedTape.Reachable := .restored (by cbv) (by cbv) rfl
  have hreg : sharedTape.HandlesRegistered := handlesRegistered_of_callbackCount (by cbv)
  obtain ⟨⟨x, d, h⟩, hshown⟩ : (∃ x d, sharedTape.PathsAgree [3] x d) ∧ _ :=
    forward_paths_agree hreach hreg rfl
  obtain ⟨m', hm', htape, -⟩ := h.forwardWithWeights
    { tape := sharedTape.run [.differentiate [5] 1], arguments := [7], partials := [8, 9] }
    (fresh_run hreach.sound _)
  have hstate : m'.tape = ((sharedTape.run [.differentiate [5] 1]).forwardWithWeights [3]).2 :=
    (congrArg Prod.snd htape).symm
  refine ⟨hreach, hreg, m', hm', ?_, ?_, hshown (.inl (by decide)) 3 (by decide)⟩
  · rw [hstate]
    decide +kernel
  · rw [hstate]
    decide +kernel

/-- A sweep with weights of the tape whose windows overlap leaves the weight 1 on the edges of the
product, whose partials are the value of the variable. -/
theorem inputs_forwardWithWeights_multiplesTape
    {w : Nat}
    (hfits : w + 4 ≤ indexLimit)
    (hwrap : 2 * (w + 1) % UInt32.size = 0)
    (x : Int) :
    ∃ u, (multiplesTape (w + 2)).forwardWithWeights [x] = (.ok (), u) ∧
      u.inputs 1 = .ok [{ source := 0, weight := 1 }, { source := 0, weight := 1 }] ∧
      ∀ p < 2, (multiplesTape (w + 2)).IsPartial u.value 1 p x := by
  have hsound := (reachable_multiplesTape (n := w + 2) (by omega)).sound
  obtain ⟨u, hu, hfresh, hval, hholds, -⟩ := forwardWithWeights_holds hsound
    (handlesRegistered_of_callbackCount (callbackCount_multiplesTape _)) (rfl : [x].length = 1)
  obtain ⟨hx, -, -⟩ := hval.multiplesTape hwrap
  have hslot := slot_multiplesTape (k := w + 2) (i := 1) (by omega)
  refine ⟨u, hu, ?_, fun p hp => ⟨_, [x, x], hslot, ?_, ?_⟩⟩
  · obtain ⟨s, hs, -, hin, -⟩ := slot_of_fresh_eq hfresh.symm hslot
    rw [inputs_eq_ok hs ((hsound.of_fresh_eq hfresh.symm).slot hs).window, hin,
      edgeList_pair (i := 0) rfl rfl (edge_of_holds hwrap hfresh hholds (by omega))
        (edge_of_holds hwrap hfresh hholds (by omega))]
    rfl
  · rw [(sourcesIn_multiplesTape hwrap).1, List.map_cons, List.map_singleton, hx]
    exact .product x x _
  · have hp : p = 0 ∨ p = 1 := by omega
    rcases hp with rfl | rfl <;> rfl

/-- At 3, these edges hold 1 and have the partial 3. -/
theorem forward_paths_deviate_multiplesTape :
    (multiplesTape 2147483649).Reachable ∧ (multiplesTape 2147483649).HandlesRegistered ∧
      ∃ u, (multiplesTape 2147483649).forwardWithWeights [3] = (.ok (), u) ∧
        u.inputs 1 = .ok [{ source := 0, weight := 1 }, { source := 0, weight := 1 }] ∧
        (multiplesTape 2147483649).IsPartial u.value 1 0 3 := by
  obtain ⟨u, hu, hinputs, hpartial⟩ := inputs_forwardWithWeights_multiplesTape
    (w := 2147483647) (by decide) (by decide) 3
  exact ⟨reachable_multiplesTape (by decide),
    handlesRegistered_of_callbackCount (callbackCount_multiplesTape _), u, hu, hinputs,
    hpartial 0 Nat.zero_lt_two⟩

end Tape
end ReverseMode
