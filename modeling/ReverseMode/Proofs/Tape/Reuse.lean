import ReverseMode.Proofs.Compiled.Independence
import ReverseMode.Proofs.Lowering.Shape
import ReverseMode.Proofs.Tape.Encoding
import ReverseMode.Proofs.Tape.Safety

/-!
# Tapes that are stored after use

**Input.**  A tape on which values and gradients were computed, in any order, at any points, and
with any refused calls between them; in particular the tape of a term without functions.

**Argument.**  What a call leaves in the buffers hangs on its point only, and a later call of the
same kind overwrites it.  So the values come from the last point of all, adjoints and weights from
the last point with a gradient (`Holds`).  Buffers are written with the tape, and numbers that are
not finite do not read back.

**Results.**
* `Holds.use`, `holds_used`: one call, and any number of calls, leave the buffers as the equations
  of the last points have them.
* `Holds.allFinite_iff`: whether all numbers are finite is a matter of these points.
* `decode_used`: a used tape reads back if and only if what its last points have left is finite.
* `Graph.stored_after_use`: so does the used tape of a term, which returns at every point what the
  new one does.
* `Graph.overflow_not_restored`: after a product that overflows it does not read back.
-/

namespace ReverseMode
namespace Tape

variable {κ α : Type}
variable {t u : Tape κ α}

section Uses

variable [Exponent κ] [Scalar κ α] {point : List α}

/-- A call that computes at a point. -/
inductive Use (α : Type) where
  | evaluate (point : List α)
  | differentiate (point : List α) (room : Nat)

def Use.call : Use α → Call α
  | .evaluate point => .evaluate point
  | .differentiate point room => .differentiate point room

/-- The points that the buffers of a tape come from, if any. -/
structure Trail (α : Type) where
  /-- The last point at which the tape had its values computed. -/
  evaluated : Option (List α) := none
  /-- The last point at which it was differentiated. -/
  differentiated : Option (List α) := none

/-- A call leaves its point, unless it is refused for the length of the point or of the gradient,
which has to be `n`. -/
def Trail.after (n : Nat) (trail : Trail α) : Use α → Trail α
  | .evaluate point =>
      if point.length = n then { trail with evaluated := some point } else trail
  | .differentiate point room =>
      if room = n ∧ point.length = n then
        { evaluated := some point, differentiated := some point }
      else trail

/-- The trail of a sequence of calls. -/
def trail (t : Tape κ α) (uses : List (Use α)) : Trail α :=
  uses.foldl (Trail.after t.dimension) {}

/-- The tape that a sequence of calls leaves. -/
def used (t : Tape κ α) (uses : List (Use α)) : Tape κ α :=
  t.run (uses.map Use.call)

/-- Values `v` and adjoints `a` that solve the equations of a tape at a point. -/
structure Solves (t : Tape κ α) (point : List α) (v a : Nat → α) : Prop where
  valuation : t.Valuation point v
  adjoints : t.Adjoints (t.linksAt v) a

/-- What the buffers of a tape hold that has come from `t` along a trail. -/
structure Holds (t : Tape κ α) (trail : Trail α) (u : Tape κ α) : Prop where
  fresh : u.fresh = t.fresh
  /-- The values are those at the last point. -/
  evaluated : ∀ point ∈ trail.evaluated, t.Valuation point u.value
  unevaluated : trail.evaluated = none → ∀ i, u.value i = t.value i
  /-- The adjoints and weights are those of the last point with a gradient. -/
  differentiated : ∀ point ∈ trail.differentiated, ∃ v, t.Solves point v u.adjoint ∧
    ∀ j ∈ t.computed, u.links j = t.linksAt v j
  undifferentiated : trail.differentiated = none →
    (∀ i, u.adjoint i = t.adjoint i) ∧ u.edges = t.edges

variable {trail : Trail α}

theorem Holds.start (t : Tape κ α) : t.Holds {} t := by
  constructor
  · rfl
  · rintro point ⟨⟩
  · exact fun _ _ => rfl
  · rintro point ⟨⟩
  · exact fun _ => ⟨fun _ => rfl, rfl⟩

theorem after_evaluate_of_length_ne
    (hp : point.length ≠ t.dimension) :
    t.after (.evaluate point) = t := by
  rw [after, evaluate, forward_of_length_ne hp]

theorem after_differentiate_of_mismatch
    {room : Nat}
    (h : ¬(room = t.dimension ∧ point.length = t.dimension)) :
    t.after (.differentiate point room) = t := by
  rw [after, differentiate]
  split
  · rw [forwardWithWeights_of_length_ne fun hp => h ⟨‹_›, hp⟩]
  · rfl

/-- Evaluating writes the values of the point and leaves adjoints and weights alone. -/
theorem Holds.evaluate
    (h : t.Holds trail u)
    (ht : t.Sound)
    (hreg : t.HandlesRegistered)
    (hp : point.length = t.dimension) :
    t.Holds { trail with evaluated := some point } (u.after (.evaluate point)) := by
  have hdim := dimension_of_fresh_eq h.fresh
  obtain ⟨w, hw, hfresh, hval, hedges, hadj⟩ := forward_spec (ht.of_fresh_eq h.fresh.symm)
    (hreg.of_fresh_eq h.fresh.symm) (hp.trans hdim.symm)
  have hafter : u.after (.evaluate point) = w := by rw [after, Tape.evaluate, hw]
  have hplan := hfresh.trans h.fresh
  rw [hafter]
  constructor
  · exact hplan
  · rintro _ ⟨⟩
    exact hval.of_fresh_eq h.fresh
  · rintro ⟨⟩
  · intro last hlast
    obtain ⟨v, hv, hlinks⟩ := h.differentiated last hlast
    refine ⟨v, ⟨hv.valuation, ?_⟩, fun j hj => ?_⟩
    · rw [funext hadj]
      exact hv.adjoints
    · rw [links_of_edges_eq hfresh hedges, hlinks j hj]
  · intro hnone
    obtain ⟨hadjoint, hsame⟩ := h.undifferentiated hnone
    exact ⟨fun i => (hadj i).trans (hadjoint i), hedges.trans hsame⟩

/-- Differentiating writes all buffers. -/
theorem Holds.differentiate
    (h : t.Holds trail u)
    (ht : t.Sound)
    (hreg : t.HandlesRegistered)
    (htiled : t.Tiled)
    (hpos : 0 < t.size)
    (hp : point.length = t.dimension) :
    t.Holds { evaluated := some point, differentiated := some point }
      (u.after (.differentiate point t.dimension)) := by
  have hdim := dimension_of_fresh_eq h.fresh
  obtain ⟨w, hw, hfresh, hval, hadj, hlinks⟩ := differentiate_spec (ht.of_fresh_eq h.fresh.symm)
    (hreg.of_fresh_eq h.fresh.symm) (htiled.of_fresh_eq h.fresh.symm)
    (by rwa [size_of_fresh_eq h.fresh]) (hp.trans hdim.symm)
  have hafter : u.after (.differentiate point t.dimension) = w := by rw [after, ← hdim, hw]
  have hval := hval.of_fresh_eq h.fresh
  rw [hafter]
  constructor
  · exact hfresh.trans h.fresh
  · rintro _ ⟨⟩
    exact hval
  · rintro ⟨⟩
  · rintro _ ⟨⟩
    refine ⟨w.value, ⟨hval, ?_⟩, fun j hj => ?_⟩
    · exact (hadj.of_fresh_eq h.fresh).of_links_eq fun j _ => linksAt_of_fresh_eq h.fresh _ j
    · rw [hlinks j (by rwa [computed_of_fresh_eq h.fresh]), linksAt_of_fresh_eq h.fresh]
  · rintro ⟨⟩

/-- A call keeps the buffers in step with the trail. -/
theorem Holds.use
    (h : t.Holds trail u)
    (ht : t.Sound)
    (hreg : t.HandlesRegistered)
    (htiled : t.Tiled)
    (hpos : 0 < t.size)
    (use : Use α) :
    t.Holds (trail.after t.dimension use) (u.after use.call) := by
  have hdim := dimension_of_fresh_eq h.fresh
  cases use with
  | evaluate point =>
      rw [Trail.after, Use.call]
      split
      · exact h.evaluate ht hreg ‹_›
      · rwa [after_evaluate_of_length_ne (by rwa [hdim])]
  | differentiate point room =>
      rw [Trail.after, Use.call]
      split
      · rename_i hfit
        obtain ⟨rfl, hp⟩ := hfit
        exact h.differentiate ht hreg htiled hpos hp
      · rwa [after_differentiate_of_mismatch (by rwa [hdim])]

/-- The buffers that a sequence of calls leaves are those of its trail. -/
theorem holds_used
    (ht : t.Sound)
    (hreg : t.HandlesRegistered)
    (htiled : t.Tiled)
    (hpos : 0 < t.size)
    (uses : List (Use α)) :
    t.Holds (t.trail uses) (t.used uses) := by
  suffices hfrom : ∀ (uses : List (Use α)) (trail : Trail α) (u : Tape κ α), t.Holds trail u →
      t.Holds (uses.foldl (Trail.after t.dimension) trail) (u.run (uses.map Use.call)) from
    hfrom uses {} t (Holds.start t)
  intro uses
  induction uses with
  | nil => exact fun _ _ h => h
  | cons use uses ih => exact fun trail u h => ih _ _ (h.use ht hreg htiled hpos use)

end Uses

section Edges

variable [Exponent κ]

/-- Every edge of a well-formed tape is one of a slot that computes. -/
theorem exists_link_of_mem_edges
    {e : Edge α}
    (hw : t.isWellFormed = true)
    (he : e ∈ t.edges) :
    ∃ j ∈ t.computed, (e.source, e.weight) ∈ t.links j := by
  have ht := sound_of_isWellFormed hw
  rw [isWellFormed, Bool.and_eq_true] at hw
  obtain ⟨p, hp⟩ := Array.mem_iff_getElem?.1 he
  have hlt := (Array.getElem?_eq_some_iff.1 hp).1
  obtain ⟨j, s, hs, hstart, hstop⟩ := exists_window_of_tilesFrom hw.2 (Nat.zero_le p) hlt
  rw [Array.getElem?_toList] at hs
  have hmem : e ∈ t.edgeList s.inputs := by
    refine List.mem_iff_getElem?.2 ⟨p - s.inputs.start, ?_⟩
    rw [getElem?_edgeList, if_pos (by omega), Nat.add_sub_cancel' hstart, hp]
  have hlink : (e.source, e.weight) ∈ t.links j := by
    rw [links_of_slot hs]
    exact List.mem_map_of_mem hmem
  refine ⟨j, ?_, hlink⟩
  have hj := lt_size_of_slot hs
  have hd : t.dimension ≤ j := by
    by_contra hlt
    rw [links_eq_nil ht (by omega)] at hlink
    cases hlink
  exact mem_computed.2 ⟨hd, by omega⟩

omit [Exponent κ] in
theorem mem_edges_of_mem_links
    {j : Nat} {l : Nat × α}
    (hl : l ∈ t.links j) :
    ∃ e ∈ t.edges, (e.source, e.weight) = l := by
  obtain ⟨s, e, -, he, hel⟩ := exists_edge_of_mem_links hl
  obtain ⟨k, hk⟩ := List.mem_iff_getElem?.1 he
  rw [getElem?_edgeList] at hk
  split at hk
  · exact ⟨e, Array.mem_of_getElem? hk, hel⟩
  · cases hk

end Edges

section Finiteness

variable {t u : Tape Float Float} {trail : Trail Float} {point : List Float}

/-- The numbers of a tape as its equations name them. -/
theorem allFinite_iff_views
    (hw : t.isWellFormed = true) :
    t.AllFinite ↔ (∀ s ∈ t.slots, ∀ k, s.op = .constPower k → k.isFinite = true) ∧
      (∀ i < t.size, (t.value i).isFinite = true) ∧
      (∀ i < t.size, (t.adjoint i).isFinite = true) ∧
      ∀ j ∈ t.computed, ∀ l ∈ t.links j, l.2.isFinite = true := by
  constructor
  · intro h
    refine ⟨h.exponent, fun i hi => ?_, fun i hi => ?_, fun j _ l hl => ?_⟩
    · obtain ⟨s, hs⟩ := exists_slot hi
      rw [value_of_slot hs]
      exact h.value s (Array.mem_of_getElem? hs)
    · obtain ⟨s, hs⟩ := exists_slot hi
      rw [adjoint_of_slot hs]
      exact h.adjoint s (Array.mem_of_getElem? hs)
    · obtain ⟨e, he, rfl⟩ := mem_edges_of_mem_links hl
      exact h.weight e he
  · rintro ⟨hexponent, hvalue, hadjoint, hweight⟩
    constructor
    · exact hexponent
    · intro s hs
      obtain ⟨i, hi⟩ := Array.mem_iff_getElem?.1 hs
      rw [← value_of_slot hi]
      exact hvalue i (lt_size_of_slot hi)
    · intro s hs
      obtain ⟨i, hi⟩ := Array.mem_iff_getElem?.1 hs
      rw [← adjoint_of_slot hi]
      exact hadjoint i (lt_size_of_slot hi)
    · intro e he
      obtain ⟨j, hj, hl⟩ := exists_link_of_mem_edges hw he
      exact hweight j hj (e.source, e.weight) hl

/-- All values at a point are finite. -/
def FiniteValues (t : Tape Float Float) (point : List Float) : Prop :=
  ∃ v, t.Valuation point v ∧ ∀ i < t.size, (v i).isFinite = true

/-- All adjoints and all partials at a point are finite. -/
def FinitePartials (t : Tape Float Float) (point : List Float) : Prop :=
  ∃ v a, t.Solves point v a ∧ (∀ i < t.size, (a i).isFinite = true) ∧
    ∀ j ∈ t.computed, ∀ l ∈ t.linksAt v j, l.2.isFinite = true

/-- What a trail leaves is finite. -/
def FiniteAfter (t : Tape Float Float) (trail : Trail Float) : Prop :=
  (∀ point ∈ trail.evaluated, t.FiniteValues point) ∧
    ∀ point ∈ trail.differentiated, t.FinitePartials point

theorem finiteValues_iff
    {v : Nat → Float}
    (ht : t.Sound)
    (hv : t.Valuation point v) :
    t.FiniteValues point ↔ ∀ i < t.size, (v i).isFinite = true := by
  constructor
  · rintro ⟨w, hw, hfinite⟩ i hi
    rw [hv.unique ht hw hi]
    exact hfinite i hi
  · exact fun h => ⟨v, hv, h⟩

theorem finitePartials_iff
    {v a : Nat → Float}
    (ht : t.Sound)
    (h : t.Solves point v a) :
    t.FinitePartials point ↔ (∀ i < t.size, (a i).isFinite = true) ∧
      ∀ j ∈ t.computed, ∀ l ∈ t.linksAt v j, l.2.isFinite = true := by
  constructor
  · rintro ⟨w, b, hb, hadjoint, hweight⟩
    have hlinks := h.valuation.linksAt_eq ht hb.valuation
    have hb' := hb.adjoints.of_links_eq fun j _ => (hlinks j).symm
    refine ⟨fun i hi => ?_, fun j hj l hl => ?_⟩
    · rw [h.adjoints.unique (fun j l hl => lt_of_mem_linksAt ht hl) hb' hi]
      exact hadjoint i hi
    · exact hweight j hj l (hlinks j ▸ hl)
  · rintro ⟨hadjoint, hweight⟩
    exact ⟨v, a, h, hadjoint, hweight⟩

/-- What has come along a trail is finite where the trail leaves nothing else, if it was finite
before. -/
theorem Holds.allFinite_iff
    (h : t.Holds trail u)
    (hw : t.isWellFormed = true)
    (hfinite : t.AllFinite) :
    u.AllFinite ↔ t.FiniteAfter trail := by
  have ht := sound_of_isWellFormed hw
  have hsize := size_of_fresh_eq h.fresh
  obtain ⟨hexponent, hvalue, hadjoint, hweight⟩ := (allFinite_iff_views hw).1 hfinite
  have hexponent' : ∀ s ∈ u.slots, ∀ k, s.op = .constPower k → k.isFinite = true := by
    intro r hr k hk
    obtain ⟨i, hi⟩ := Array.mem_iff_getElem?.1 hr
    obtain ⟨s, hs, hop, -, -⟩ := slot_of_fresh_eq h.fresh hi
    exact hexponent s (Array.mem_of_getElem? hs) k (hop.trans hk)
  have hvalues : (∀ i < u.size, (u.value i).isFinite = true) ↔
      ∀ point ∈ trail.evaluated, t.FiniteValues point := by
    rw [hsize]
    cases hlast : trail.evaluated with
    | none =>
        simp only [h.unevaluated hlast]
        exact iff_of_true hvalue nofun
    | some point => simp [finiteValues_iff ht (h.evaluated point hlast)]
  have hpartials : ((∀ i < u.size, (u.adjoint i).isFinite = true) ∧
      ∀ j ∈ u.computed, ∀ l ∈ u.links j, l.2.isFinite = true) ↔
        ∀ point ∈ trail.differentiated, t.FinitePartials point := by
    rw [hsize, computed_of_fresh_eq h.fresh]
    cases hlast : trail.differentiated with
    | none =>
        obtain ⟨hadj, hedges⟩ := h.undifferentiated hlast
        simp only [hadj, links_of_edges_eq h.fresh hedges]
        exact iff_of_true ⟨hadjoint, hweight⟩ nofun
    | some point =>
        obtain ⟨v, hv, hlinks⟩ := h.differentiated point hlast
        simp only [Option.mem_some_iff, forall_eq', finitePartials_iff ht hv]
        exact and_congr_right fun _ => forall₂_congr fun j hj => by rw [hlinks j hj]
  have hwell := (isWellFormed_of_fresh_eq h.fresh).trans hw
  rw [allFinite_iff_views hwell, and_iff_right hexponent', hvalues, hpartials, FiniteAfter]

end Finiteness

section Storage

variable {t : Tape Float Float}

/-- A tape without functions can be written whatever was computed on it.  It reads back, with what
its buffers hold, where the last calls have left finite numbers only. -/
theorem decode_used
    (hw : t.isWellFormed = true)
    (hcount : t.callbackCount = 0)
    (hnone : t.hasCallbacks = false)
    (hsize : t.size ≤ indexLimit)
    (hfinite : t.AllFinite)
    (uses : List (Use Float)) :
    ∃ d, encode (t.used uses) = .ok d ∧
      (t.FiniteAfter (t.trail uses) ∧ decode d = .ok (t.used uses) ∨
        ¬t.FiniteAfter (t.trail uses) ∧ decode d = .error .shape) := by
  have ht := sound_of_isWellFormed hw
  have hpos : 0 < t.size := by
    rw [isWellFormed, Bool.and_eq_true, decide_eq_true_eq] at hw
    omega
  have h := holds_used ht (handlesRegistered_of_callbackCount hcount) (tiled_of_isWellFormed hw)
    hpos uses
  have hcallbacks : (t.used uses).hasCallbacks = false := by
    rw [hasCallbacks, callbacks_of_fresh_eq h.fresh]
    exact hnone
  have hwords := (ht.of_fresh_eq h.fresh.symm).inWords (by rwa [size_of_fresh_eq h.fresh])
  have hwell := (isWellFormed_of_fresh_eq h.fresh).trans hw
  have hcalls := (callbackCount_of_fresh_eq h.fresh).trans hcount
  obtain ⟨d, hd⟩ := exists_encode_iff.2 hcallbacks
  refine ⟨d, hd, ?_⟩
  rw [decode_eq_ok_iff hwords hd, decode_eq_error_shape_iff hwords hcalls hd,
    h.allFinite_iff hw hfinite]
  by_cases hafter : t.FiniteAfter (t.trail uses)
  · exact .inl ⟨hafter, ⟨hwell, hcalls, hafter⟩, rfl⟩
  · exact .inr ⟨hafter, hafter⟩

end Storage
end Tape

namespace Graph

variable {g : Graph Float Float} {root : g.Term} {vs : List g.Variable} {l : Lowered Float Float}

section Terms

/-- As it is made, the tape of a term has no number that is not finite but constants of the term. -/
theorem allFinite_of_ofTerm
    (hl : g.Lowerable root vs)
    (hofTerm : Tape.ofTerm g root vs = .ok l)
    (hconst : ∀ t c, g.Reaches root t → g.node t = .const c → c.isFinite = true) :
    l.tape.AllFinite := by
  obtain ⟨l', hl', hrep, -⟩ := ofTerm_walk hl
  obtain rfl := Except.ok.inj (hofTerm.symm.trans hl')
  obtain ⟨hslots, hedges⟩ := Tape.fresh_of_built (Tape.built_ofTerm hofTerm)
  have hzero : (0 : Float).isFinite = true := by decide
  constructor
  · intro s hs k hk
    have hvalid := hrep.exponentValid hs
    rw [hk] at hvalid
    exact (Bool.and_eq_true_iff.1 hvalid).1
  · intro s hs
    rw [← hslots s hs]
    cases hc : s.op.isConst with
    | false => simpa [Slot.fresh, hc] using hzero
    | true =>
        obtain ⟨i, hi⟩ := Array.mem_iff_getElem?.1 hs
        rcases hrep.op_cases hi with hop | ⟨t, ht, hstands, -⟩ | hop
        · rw [hop] at hc
          cases hc
        · rcases hstands.eq_of_isConst hc with hnode | hvalue
          · have hreach := (mem_computedWalk.1 ht).1
            simpa [Slot.fresh, hc] using hconst t s.value hreach hnode
          · simpa [Slot.fresh, hvalue] using hzero
        · rw [hop] at hc
          cases hc
  · intro s hs
    rw [← hslots s hs]
    exact hzero
  · intro e he
    rw [← hedges e he]
    exact hzero

/-- The tape of a term without functions, whose constants are finite, can be written whatever was
computed on it.  What was written reads back as the used tape where the values at the last point are
finite, and adjoints and partials at the last point with a gradient; else it does not read back at
all, though the tape returns at every point what it did before it was used. -/
theorem stored_after_use
    (hl : g.Lowerable root vs)
    (hcalls : ∀ t, g.Reaches root t → (g.node t).callsFunction = false)
    (hconst : ∀ t c, g.Reaches root t → g.node t = .const c → c.isFinite = true)
    (uses : List (Tape.Use Float)) :
    ∃ l d, Tape.ofTerm g root vs = .ok l ∧ l.tape.isWellFormed = true ∧
      Tape.encode (l.tape.used uses) = .ok d ∧
      (l.tape.FiniteAfter (l.tape.trail uses) ∧ Tape.decode d = .ok (l.tape.used uses) ∨
        ¬l.tape.FiniteAfter (l.tape.trail uses) ∧ Tape.decode d = .error .shape) ∧
      ∀ point, point.length = vs.length → ∃ x gradient,
        (l.tape.evaluate point).1 = .ok x ∧ ((l.tape.used uses).evaluate point).1 = .ok x ∧
        (l.tape.differentiate point vs.length).1 = .ok (x, gradient) ∧
        ((l.tape.used uses).differentiate point vs.length).1 = .ok (x, gradient) := by
  have hmade : ∀ e, Tape.ofTerm g root vs ≠ .error (.binding e) := by
    intro e he
    obtain ⟨l, -, hofTerm, -⟩ := ofTerm_spec hl
    rw [hofTerm] at he
    cases he
  obtain ⟨l, hofTerm, hlayout⟩ := ofTerm_exactLayout hmade hl.slots_fit hl.edges_fit
  have hw := hlayout.wellFormed
  have ht := Tape.sound_of_isWellFormed hw
  have hreg := handlesRegistered_of_ofTerm hofTerm
  have hnone := callbacks_of_ofTerm hofTerm hcalls
  have hempty : l.tape.hasCallbacks = false := by
    rw [Tape.hasCallbacks, hnone]
    rfl
  obtain ⟨d, hd, hread⟩ := Tape.decode_used hw (hreg.callbackCount_eq_zero hnone) hempty
    (Tape.size_le_of_built (Tape.built_ofTerm hofTerm)) (allFinite_of_ofTerm hl hofTerm hconst) uses
  refine ⟨l, d, hofTerm, hw, hd, hread, fun point hpoint => ?_⟩
  have hfresh := Tape.fresh_run ht (uses.map Tape.Use.call)
  have hdim := hlayout.dimension
  obtain ⟨x, gradient, hx, -⟩ := (Tape.Accepted.ofTerm hofTerm).safe.differentiate point
    (hpoint.trans hdim.symm)
  have hvalue := Tape.evaluate_of_differentiate ht hx
  rw [hdim] at hx
  exact ⟨x, gradient, hvalue, (Tape.evaluate_of_fresh_eq ht hfresh point).symm.trans hvalue, hx,
    (Tape.differentiate_of_fresh_eq ht hfresh point _).symm.trans hx⟩

end Terms

section Overflow

open CompiledTerm (partlyRead lowerable_partlyRead)
open Tape

/-- The tape of `x * y + x`. -/
def partlyReadTape : Tape Float Float where
  slots :=
    #[⟨.input, 0, 0, ⟨0, 0⟩⟩, ⟨.input, 0, 0, ⟨0, 0⟩⟩, ⟨.product, 0, 0, ⟨0, 2⟩⟩,
      ⟨.sum, 0, 0, ⟨2, 2⟩⟩]
  edges := #[⟨0, 0⟩, ⟨1, 0⟩, ⟨2, 0⟩, ⟨0, 0⟩]
  dimension := 2

theorem ofTerm_partlyRead :
    (ofTerm partlyRead partlyRead.root [partlyRead.x, partlyRead.y]).map (·.tape) =
      .ok partlyReadTape := by
  cbv

/-- Where nothing overflows, the used tape is restored with what its buffers hold. -/
theorem stored_after_use_partlyRead :
    partlyRead.Lowerable partlyRead.root [partlyRead.x, partlyRead.y] ∧
      (∀ t : partlyRead.Term, (partlyRead.node t).callsFunction = false) ∧
      (∀ (t : partlyRead.Term) c, partlyRead.node t ≠ .const c) ∧
      ∃ d, encode (partlyReadTape.used [.differentiate [3.0, 5.0] 2, .evaluate [2.0, 4.0]]) =
          .ok d ∧
        decode d =
          .ok (partlyReadTape.used [.differentiate [3.0, 5.0] 2, .evaluate [2.0, 4.0]]) := by
  have hl : partlyRead.Lowerable partlyRead.root [partlyRead.x, partlyRead.y] :=
    lowerable_partlyRead (by decide) (by simp) (by decide)
  have hcalls : ∀ t : partlyRead.Term, (partlyRead.node t).callsFunction = false := by decide
  have hconst : ∀ (t : partlyRead.Term) c, partlyRead.node t ≠ .const c := by
    have hkinds : ∀ t : partlyRead.Term, (match partlyRead.node t with
        | .const _ => false
        | _ => true) = true := by
      decide
    intro t c h
    have hkind := hkinds t
    rw [h] at hkind
    cases hkind
  obtain ⟨l, d, hl', -, hd, hread, -⟩ := stored_after_use hl (fun t _ => hcalls t)
    (fun t c _ h => absurd h (hconst t c)) [.differentiate [3.0, 5.0] 2, .evaluate [2.0, 4.0]]
  have htape : l.tape = partlyReadTape := by
    have hsame := ofTerm_partlyRead
    rw [hl'] at hsame
    exact Except.ok.inj hsame
  rw [htape] at hd hread
  refine ⟨hl, hcalls, hconst, d, hd, ?_⟩
  rcases hread with ⟨-, hread⟩ | ⟨-, hread⟩
  · exact hread
  · obtain rfl := (encode_eq_ok_iff.1 hd).2
    have hsome : (decode (written (partlyReadTape.used
        [.differentiate [3.0, 5.0] 2, .evaluate [2.0, 4.0]]))).toOption.isSome = true := by
      decide +kernel
    rw [hread] at hsome
    cases hsome

/-- The product of `1e200` with itself is infinite, and so is its sum with `1e200`.  The tape that
was used there is written, but what was written is refused, while the new tape reads back. -/
theorem overflow_not_restored :
    ∃ d d', (ofTerm partlyRead partlyRead.root [partlyRead.x, partlyRead.y]).map (·.tape) =
        .ok partlyReadTape ∧
      encode partlyReadTape = .ok d ∧ decode d = .ok partlyReadTape ∧
      encode (partlyReadTape.used [.evaluate [1e200, 1e200]]) = .ok d' ∧
      decode d' = .error .shape := by
  have hwords : partlyReadTape.InWords := ⟨by decide, by decide⟩
  have hpowers : ∀ s ∈ partlyReadTape.slots, ∀ k, s.op = .constPower k → k.isFinite = true := by
    intro s hs k hk
    simp [partlyReadTape] at hs
    rcases hs with rfl | rfl | rfl <;> cases hk
  have hfinite : partlyReadTape.AllFinite := ⟨hpowers, by decide, by decide, by decide⟩
  have hd : encode partlyReadTape = .ok (written partlyReadTape) := encode_eq_ok_iff.2 ⟨rfl, rfl⟩
  have hshape : (decodeShape? (written
      (partlyReadTape.used [.evaluate [1e200, 1e200]]))).isNone = true := by
    decide +kernel
  refine ⟨_, _, ofTerm_partlyRead, hd, ?_, encode_eq_ok_iff.2 ⟨by decide +kernel, rfl⟩, ?_⟩
  · exact (decode_eq_ok_iff hwords hd).2 ⟨⟨by decide +kernel, rfl, hfinite⟩, rfl⟩
  · rw [decode, Option.isNone_iff_eq_none.1 hshape]

end Overflow
end Graph
end ReverseMode
