import ReverseMode.Proofs.Tape.Equations
import ReverseMode.Proofs.Tape.WellFormed

/-!
# The partials that edges hold

A weight is written when its slot is done, from the values of earlier slots.  No later step of the
sweep changes these values, and only a later slot whose window shows the same edge writes the weight
again.  So an edge is left with the partial of its owner, the last slot that shows it, at the values
of the plan.

**Results.**
* `Op.HasPartials`: the partials of an operation, by its rule or by the function that it calls.
* `Valuation.forwardWithWeights`: the values and weights that a sweep leaves, whatever storage it
  starts from.
* `Reachable.existsUnique_shows`: as long as there are 32-bit offsets for all edges, each is shown by
  one slot.
-/

namespace ReverseMode

variable {κ α : Type}

section Partials

variable [Exponent κ] [Scalar κ α]

/-- The partials of an operation in its operands, where `r` is its value: those of its rule, or those
of the function that it calls. -/
inductive Op.HasPartials (c : Callbacks α) : Op κ → List α → α → List α → Prop where
  | const (r : α) : HasPartials c .const [] r []
  | sum (args : List α) (r : α) : HasPartials c .sum args r (List.replicate args.length 1)
  | product (a b r : α) : HasPartials c .product [a, b] r [b, a]
  | constPower (k : κ) (a r : α) :
      HasPartials c (.constPower k) [a] r [Scalar.constPowerPartial a k]
  | termPower (a b r : α) :
      HasPartials c .termPower [a, b] r [b * Scalar.pow (κ := κ) a (b - 1), r * Scalar.ln a]
  | exp (a r : α) : HasPartials c .exp [a] r [r]
  | ln (a r : α) : HasPartials c .ln [a] r [Scalar.recip a]
  | unary {h : Nat} {f : UnaryFn α} (a r : α) :
      c.unary[h]? = some f → HasPartials c (.unary h) [a] r [f.derivative a]
  | binary {h : Nat} {f : BinaryFn α} (a b r : α) :
      c.binary[h]? = some f →
        HasPartials c (.binary h) [a, b] r [(f.partials a b).1, (f.partials a b).2]
  | nary {h : Nat} {f : NaryFn α} (args : List α) (r : α) :
      c.nary[h]? = some f → HasPartials c (.nary h) args r (f.gradient args)

/-- An operation has one list of partials. -/
theorem Op.HasPartials.unique
    {c : Callbacks α} {op : Op κ} {args ws ws' : List α} {r : α}
    (h : op.HasPartials c args r ws)
    (h' : op.HasPartials c args r ws') :
    ws = ws' := by
  cases h with
  | unary a _ hf =>
      cases h' with
      | unary _ _ hf' => rw [Option.some.inj (hf.symm.trans hf')]
  | binary a b _ hf =>
      cases h' with
      | binary _ _ _ hf' => rw [Option.some.inj (hf.symm.trans hf')]
  | nary _ _ hf =>
      cases h' with
      | nary _ _ hf' => rw [Option.some.inj (hf.symm.trans hf')]
  | _ =>
      cases h'
      rfl

variable {t : Tape κ α}

/-- What `Tape.opWeights` computes are the partials. -/
theorem Tape.hasPartials_partials
    {op : Op κ} {args : List α}
    (r : α)
    (hin : op.isInput = false)
    (hreg : op.RegisteredIn t.callbacks)
    (hover : op.Over args) :
    op.HasPartials t.callbacks args r (t.partials op args r) := by
  cases hover with
  | input => cases hin
  | const => exact .const r
  | sum =>
      have h := Op.HasPartials.sum (κ := κ) (c := t.callbacks) args r
      rwa [← List.map_const'] at h
  | product a b => exact .product a b r
  | constPower k a => exact .constPower k a r
  | termPower a b => exact .termPower a b r
  | exp a => exact .exp a r
  | ln a => exact .ln a r
  | unary h a =>
      rw [partials, opWeights, unaryFn_eq_ok hreg]
      exact .unary a r (Array.getElem?_eq_getElem _)
  | binary h a b =>
      rw [partials, opWeights, binaryFn_eq_ok hreg]
      exact .binary a b r (Array.getElem?_eq_getElem _)
  | nary h =>
      rw [partials, opWeights, naryFn_eq_ok hreg]
      exact .nary args r (Array.getElem?_eq_getElem _)

end Partials

namespace Tape

variable {t u : Tape κ α} {point : List α}

section Edges

/-- A slot that shows an edge computes: variables have no edges. -/
theorem Shows.mem_computed
    {k p : Nat}
    (ht : t.Sound)
    (h : t.Shows k p) :
    k ∈ t.computed := by
  obtain ⟨s, hs, hstart, hstop⟩ := h
  have hsize := lt_size_of_slot hs
  have hk : t.dimension ≤ k := by
    by_contra hlt
    have hin := (ht.slot hs).input_iff.2 (by omega)
    have hempty : (t.sourcesIn s.inputs).length = 0 := by
      refine (ht.slot hs).arity 0 ?_
      cases hop : s.op <;> rw [hop] at hin <;> first
        | rfl
        | cases hin
    rw [length_sourcesIn (ht.slot hs).window] at hempty
    omega
  exact Tape.mem_computed.2 (by omega)

/-- Slot `k` is the last that shows edge `p`. -/
structure Owns (t : Tape κ α) (k p : Nat) : Prop where
  shows_edge : t.Shows k p
  last : ∀ j, k < j → ¬ t.Shows j p

theorem Owns.lastToShow
    {k p : Nat}
    (ht : t.Sound)
    (h : t.Owns k p) :
    t.LastToShow t.computed k p :=
  ⟨h.shows_edge.mem_computed ht, h.shows_edge, fun j _ => h.last j⟩

/-- Windows that do not overlap show an edge once. -/
theorem Tiled.shows_unique
    {k l p : Nat}
    (h : t.Tiled)
    (hk : t.Shows k p)
    (hl : t.Shows l p) :
    k = l := by
  obtain ⟨s, hs, hsstart, hsstop⟩ := hk
  obtain ⟨r, hr, hrstart, hrstop⟩ := hl
  rcases Nat.lt_trichotomy k l with hlt | heq | hgt
  · have := h k l s r hlt hs hr
    omega
  · exact heq
  · have := h l k r s hgt hr hs
    omega

variable [Scalar κ α]

theorem Shows.of_fresh_eq
    {k p : Nat}
    (h : t.Shows k p)
    (hfresh : t.fresh = u.fresh) :
    u.Shows k p := by
  obtain ⟨s, hs, hin⟩ := h
  obtain ⟨r, hr, -, hinputs, -⟩ := slot_of_fresh_eq hfresh hs
  exact ⟨r, hr, by rwa [hinputs]⟩

theorem Owns.of_fresh_eq
    {k p : Nat}
    (h : t.Owns k p)
    (hfresh : t.fresh = u.fresh) :
    u.Owns k p := by
  refine ⟨h.shows_edge.of_fresh_eq hfresh, fun j hj hshow => ?_⟩
  exact h.last j hj (hshow.of_fresh_eq hfresh.symm)

variable [Exponent κ]

/-- Every edge of a tape with 32-bit offsets for its edges, or of one that is well formed, is shown by
one slot. -/
theorem Reachable.existsUnique_shows
    {p : Nat}
    (h : t.Reachable)
    (hwindows : t.edges.size < UInt32.size ∨ t.isWellFormed = true)
    (hp : p < t.edges.size) :
    ∃! k, t.Shows k p := by
  obtain ⟨hregular, htiled⟩ : t.Regular ∧ t.Tiled := by
    rcases hwindows with hcap | hw
    · exact ⟨h.regular hcap, h.tiled hcap⟩
    · exact ⟨regular_of_isWellFormed hw, tiled_of_isWellFormed hw⟩
  obtain ⟨k, s, hs, hin⟩ := hregular.chained.exists_window (Nat.zero_le p) hp
  rw [Array.getElem?_toList] at hs
  exact ⟨k, ⟨s, hs, hin⟩, fun l hl => htiled.shows_unique hl ⟨s, hs, hin⟩⟩

/-- The weight is the partial that slot `k` has for edge `p` at the values `x`. -/
def IsPartial (t : Tape κ α) (x : Nat → α) (k p : Nat) (weight : α) : Prop :=
  ∃ s ws, t.slots[k]? = some s ∧
    s.op.HasPartials t.callbacks ((t.sourcesIn s.inputs).map x) (x k) ws ∧
    ws[p - s.inputs.start]? = some weight

theorem IsPartial.unique
    {x : Nat → α} {k p : Nat} {a b : α}
    (ha : t.IsPartial x k p a)
    (hb : t.IsPartial x k p b) :
    a = b := by
  obtain ⟨s, ws, hs, hpartials, hweight⟩ := ha
  obtain ⟨s', ws', hs', hpartials', hweight'⟩ := hb
  obtain rfl := Option.some.inj (hs.symm.trans hs')
  obtain rfl := hpartials.unique hpartials'
  exact Option.some.inj (hweight.symm.trans hweight')

theorem IsPartial.of_fresh_eq
    {x : Nat → α} {k p : Nat} {weight : α}
    (h : t.IsPartial x k p weight)
    (hfresh : t.fresh = u.fresh) :
    u.IsPartial x k p weight := by
  obtain ⟨s, ws, hs, hpartials, hweight⟩ := h
  obtain ⟨r, hr, hop, hinputs, -⟩ := slot_of_fresh_eq hfresh hs
  refine ⟨r, ws, hr, ?_, by rwa [hinputs]⟩
  rwa [hop, hinputs, ← callbacks_of_fresh_eq hfresh, ← sourcesIn_of_fresh_eq hfresh]

/-- What an edge holds for a slot is its partial at all values that agree with the stored ones. -/
theorem HoldsPartial.isPartial
    {k p : Nat} {x : Nat → α}
    (ht : t.Sound)
    (hreg : t.HandlesRegistered)
    (h : t.HoldsPartial u k p)
    (hk : t.dimension ≤ k)
    (hx : ∀ j ≤ k, u.value j = x j) :
    ∃ e, u.edges[p]? = some e ∧ t.IsPartial x k p e.weight := by
  obtain ⟨s, e, hs, he, hweight⟩ := h
  have hsound := ht.slot hs
  have hin : s.op.isInput = false := by
    rw [← Bool.not_eq_true, hsound.input_iff]
    omega
  rw [partialsAt_congr ht hs hx] at hweight
  refine ⟨e, he, s, _, hs, ?_, hweight⟩
  exact hasPartials_partials (x k) hin (hreg s (Array.mem_of_getElem? hs)) (hsound.applied.map x)

end Edges

section Values

variable [Exponent κ] [Scalar κ α]

/-- Values that solve the equations of a plan are what every tape of the plan holds that solves
them. -/
theorem Valuation.value_eq
    {x : Nat → α} {i : Nat}
    (ht : t.Sound)
    (hx : t.Valuation point x)
    (hfresh : u.fresh = t.fresh)
    (hu : u.Valuation point u.value)
    (hi : i < u.size) :
    u.value i = x i :=
  (hu.of_fresh_eq hfresh).unique ht hx (size_of_fresh_eq hfresh ▸ hi)

theorem Valuation.stored_eq
    {x : Nat → α} {i : Nat} {s : Slot κ α}
    (ht : t.Sound)
    (hx : t.Valuation point x)
    (hfresh : u.fresh = t.fresh)
    (hu : u.Valuation point u.value)
    (hs : u.slots[i]? = some s) :
    s.value = x i := by
  rw [← value_of_slot hs]
  exact hx.value_eq ht hfresh hu (lt_size_of_slot hs)

/-- A sweep with weights of a tape of a sound plan leaves the values of the plan, and in every edge
that has an owner its partial at these values. -/
theorem Valuation.forwardWithWeights
    {x : Nat → α}
    (ht : t.Sound)
    (hreg : t.HandlesRegistered)
    (hp : point.length = t.dimension)
    (hx : t.Valuation point x)
    (hu : u.fresh = t.fresh) :
    ∃ w, u.forwardWithWeights point = (.ok (), w) ∧
      (∀ i s, w.slots[i]? = some s → s.value = x i) ∧
      ∀ k p, t.Owns k p → ∃ e, w.edges[p]? = some e ∧ t.IsPartial x k p e.weight := by
  have hsound := ht.of_fresh_eq hu.symm
  have hregistered := hreg.of_fresh_eq hu.symm
  obtain ⟨w, hw, hfresh, hval, hholds, -⟩ :=
    forwardWithWeights_holds hsound hregistered (hp.trans (dimension_of_fresh_eq hu).symm)
  have hval := hval.of_fresh_eq hfresh.symm
  have hsize := size_of_fresh_eq hfresh
  refine ⟨w, hw, fun i s hs => hx.stored_eq ht (hfresh.trans hu) hval hs, fun k p howns => ?_⟩
  have hlast := (howns.of_fresh_eq hu.symm).lastToShow hsound
  have hk := mem_computed.1 hlast.mem
  obtain ⟨e, he, hpartial⟩ := (hholds k p hlast).isPartial hsound hregistered hk.1 fun j hj =>
    hx.value_eq ht (hfresh.trans hu) hval (by omega)
  exact ⟨e, he, hpartial.of_fresh_eq hu⟩

end Values
end Tape
end ReverseMode
