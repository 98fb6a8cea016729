import ReverseMode.Proofs.Tape.Equations

/-!
# The equations of adjoints

The adjoint of a slot is the fold, from its seed on, of what later slots pass back to it: last
slot first, and within a slot its edges in order.  No law of addition is used, so the order is
part of the equation.  Since slots are read by later slots only, the equations have one solution.

**Results.**
* `Adjoints.unique`: the adjoints are determined by the links between slots.
* `reverse_spec`: a reverse sweep of a sound tape ends without a fault in the adjoints that
  solve the equations for the weights it found.
* `evaluate_spec`, `differentiate_holds`, `differentiate_spec`: what the two ways to run a tape
  return, and the storage that they leave.
-/

namespace ReverseMode
namespace Tape

variable {κ α : Type}

section Defs

variable [Exponent κ] [Scalar κ α]

/-- The edges of a slot as pairs of a source and the weight that is stored for it. -/
def links (t : Tape κ α) (j : Nat) : List (Nat × α) :=
  (t.slots[j]?.map fun s => (t.edgeList s.inputs).map fun e => (e.source, e.weight)).getD []

/-- The edges of a slot as pairs of a source and the partial in it at given values. -/
def linksAt (t : Tape κ α) (v : Nat → α) (j : Nat) : List (Nat × α) :=
  (t.slots[j]?.map fun s => (t.sourcesIn s.inputs).zip (t.partialsAt v j s)).getD []

/-- What slot `j` passes back to slot `i`, edge by edge. -/
def passed (ls : Nat → List (Nat × α)) (a : Nat → α) (i j : Nat) : List α :=
  (ls j).filterMap fun l => if l.1 = i then some (a j * l.2) else none

/-- The adjoint that a slot starts from. -/
def seedAt (t : Tape κ α) (i : Nat) : α :=
  if i = t.size - 1 then 1 else 0

/-- Adjoints that solve the equations of a tape with given links. -/
def Adjoints (t : Tape κ α) (ls : Nat → List (Nat × α)) (a : Nat → α) : Prop :=
  ∀ i < t.size, a i = (t.computed.reverse.flatMap (passed ls a i)).foldl (· + ·) (t.seedAt i)

end Defs

section Links

variable {t : Tape κ α}

theorem links_of_slot
    {j : Nat} {s : Slot κ α}
    (hs : t.slots[j]? = some s) :
    t.links j = (t.edgeList s.inputs).map fun e => (e.source, e.weight) := by
  simp [links, hs]

/-- What a slot passes back follows its edges. -/
theorem exists_edge_of_mem_links
    {j : Nat} {l : Nat × α}
    (hl : l ∈ t.links j) :
    ∃ s e, t.slots[j]? = some s ∧ e ∈ t.edgeList s.inputs ∧ (e.source, e.weight) = l := by
  unfold links at hl
  cases hs : t.slots[j]? with
  | none => simp [hs] at hl
  | some s =>
      simp only [hs, Option.map_some, Option.getD_some, List.mem_map] at hl
      obtain ⟨e, he, hel⟩ := hl
      exact ⟨s, e, rfl, he, hel⟩

/-- A slot passes nothing back but to earlier slots. -/
theorem lt_of_mem_links
    (ht : t.Sound)
    {j : Nat} {l : Nat × α}
    (hl : l ∈ t.links j) :
    l.1 < j := by
  obtain ⟨s, e, hs, he, rfl⟩ := exists_edge_of_mem_links hl
  exact (ht.slot hs).earlier e.source (List.mem_map_of_mem he)

/-- Variables read nothing. -/
theorem sourcesIn_eq_nil
    (ht : t.Sound)
    {j : Nat} {s : Slot κ α}
    (hs : t.slots[j]? = some s)
    (hj : j < t.dimension) :
    t.sourcesIn s.inputs = [] := by
  have hsound := ht.slot hs
  have hin := hsound.input_iff.2 hj
  apply List.eq_nil_of_length_eq_zero
  apply hsound.arity
  cases hop : s.op with
  | input => rfl
  | _ =>
      rw [hop] at hin
      cases hin

theorem links_eq_nil
    (ht : t.Sound)
    {j : Nat}
    (hj : j < t.dimension) :
    t.links j = [] := by
  have hsize := ht.dimension_le
  obtain ⟨s, hs⟩ := exists_slot (t := t) (i := j) (by omega)
  have hnil := sourcesIn_eq_nil ht hs hj
  rw [sourcesIn, List.map_eq_nil_iff] at hnil
  rw [links_of_slot hs, hnil]
  rfl

variable [Scalar κ α]

theorem passed_congr
    {ls : Nat → List (Nat × α)} {a b : Nat → α} {i j : Nat}
    (h : (∃ l ∈ ls j, l.1 = i) → a j = b j) :
    passed ls a i j = passed ls b i j := by
  apply List.filterMap_congr
  intro l hl
  split
  · rw [h ⟨l, hl, ‹_›⟩]
  · rfl

/-- A slot that is not read passes nothing back. -/
theorem passed_eq_nil
    {ls : Nat → List (Nat × α)} {a : Nat → α} {i j : Nat}
    (h : ∀ l ∈ ls j, l.1 ≠ i) :
    passed ls a i j = [] := by
  rw [passed, List.filterMap_eq_nil_iff]
  intro l hl
  rw [if_neg (h l hl)]

variable [Exponent κ]

theorem linksAt_of_slot
    {v : Nat → α} {j : Nat} {s : Slot κ α}
    (hs : t.slots[j]? = some s) :
    t.linksAt v j = (t.sourcesIn s.inputs).zip (t.partialsAt v j s) := by
  simp [linksAt, hs]

/-- The links at given values show the plan only. -/
theorem linksAt_of_fresh_eq
    {u : Tape κ α}
    (h : t.fresh = u.fresh)
    (v : Nat → α) (j : Nat) :
    t.linksAt v j = u.linksAt v j := by
  rcases slot_none_or_some_of_fresh_eq h j with ⟨hs, hr⟩ | ⟨s, r, hs, hr, hop, hin⟩
  · rw [linksAt, linksAt, hs, hr]
    rfl
  · rw [linksAt_of_slot hs, linksAt_of_slot hr, partialsAt, partialsAt, hop, hin,
      sourcesIn_of_fresh_eq h, partials_congr (callbacks_of_fresh_eq h)]

/-- Values that solve the equations of a point give the same links. -/
theorem Valuation.linksAt_eq
    {point : List α} {v w : Nat → α}
    (ht : t.Sound)
    (hv : t.Valuation point v)
    (hw : t.Valuation point w)
    (j : Nat) :
    t.linksAt v j = t.linksAt w j := by
  cases hs : t.slots[j]? with
  | none =>
      rw [linksAt, linksAt, hs]
      rfl
  | some s =>
      have hj := lt_size_of_slot hs
      rw [linksAt_of_slot hs, linksAt_of_slot hs,
        partialsAt_congr ht hs fun i hi => hv.unique ht hw (by omega)]

theorem linksAt_eq_nil
    (ht : t.Sound)
    {v : Nat → α} {j : Nat}
    (hj : j < t.dimension) :
    t.linksAt v j = [] := by
  have hsize := ht.dimension_le
  obtain ⟨s, hs⟩ := exists_slot (t := t) (i := j) (by omega)
  rw [linksAt_of_slot hs, sourcesIn_eq_nil ht hs hj, List.zip_nil_left]

theorem lt_of_mem_linksAt
    (ht : t.Sound)
    {v : Nat → α} {j : Nat} {l : Nat × α}
    (hl : l ∈ t.linksAt v j) :
    l.1 < j := by
  unfold linksAt at hl
  cases hs : t.slots[j]? with
  | none => simp [hs] at hl
  | some s =>
      simp only [hs, Option.map_some, Option.getD_some] at hl
      exact (ht.slot hs).earlier l.1 (List.of_mem_zip hl).1

end Links

section Solutions

variable [Scalar κ α] {t : Tape κ α} {ls : Nat → List (Nat × α)} {a b : Nat → α}

/-- The adjoints are determined by the links.  It is enough that the second family solves the
equations of the slots that pass something back, and of the slot in question. -/
theorem Adjoints.eq_of_solved
    {P : Nat → Prop}
    (hls : ∀ j, ∀ l ∈ ls j, l.1 < j ∧ P j)
    (ha : t.Adjoints ls a)
    (hb : ∀ i < t.size, P i →
      b i = (t.computed.reverse.flatMap (passed ls b i)).foldl (· + ·) (t.seedAt i))
    {i : Nat}
    (hi : i < t.size)
    (hP : P i) :
    a i = b i := by
  -- An adjoint hangs on those of later slots, so the induction runs from the output down.
  induction h : t.size - i using Nat.strongRecOn generalizing i with
  | ind n ih =>
      rw [ha i hi, hb i hi hP]
      congr 1
      apply List.flatMap_congr
      intro j hj
      rw [List.mem_reverse, mem_computed] at hj
      apply passed_congr
      rintro ⟨l, hl, rfl⟩
      obtain ⟨hlj, hPj⟩ := hls j l hl
      exact ih (t.size - j) (by omega) (by omega) hPj rfl

theorem Adjoints.unique
    (hls : ∀ j, ∀ l ∈ ls j, l.1 < j)
    (ha : t.Adjoints ls a)
    (hb : t.Adjoints ls b)
    {i : Nat}
    (hi : i < t.size) :
    a i = b i :=
  ha.eq_of_solved (P := fun _ => True) (fun j l hl => ⟨hls j l hl, trivial⟩)
    (fun i hi _ => hb i hi) hi trivial

theorem Adjoints.of_links_eq
    {ls' : Nat → List (Nat × α)}
    (ha : t.Adjoints ls a)
    (h : ∀ j ∈ t.computed, ls j = ls' j) :
    t.Adjoints ls' a := by
  intro i hi
  rw [ha i hi]
  congr 1
  apply List.flatMap_congr
  intro j hj
  rw [passed, passed, h j (List.mem_reverse.1 hj)]

/-- The equations show the plan only. -/
theorem Adjoints.of_fresh_eq
    {u : Tape κ α}
    (ha : t.Adjoints ls a)
    (h : t.fresh = u.fresh) :
    u.Adjoints ls a := by
  intro i hi
  rw [← computed_of_fresh_eq h, seedAt, ← size_of_fresh_eq h]
  exact ha i (by rw [size_of_fresh_eq h]; exact hi)

end Solutions

section Reverse

variable [Scalar κ α] {t : Tape κ α}

theorem contributions_eq_ok
    (ht : t.Sound)
    {j : Nat} {s : Slot κ α}
    (hs : t.slots[j]? = some s) :
    t.contributions j = .ok ((t.links j).map fun l => (l.1, t.adjoint j * l.2)) := by
  have hsound := ht.slot hs
  have hj := (Array.getElem?_eq_some_iff.1 hs).1
  rw [contributions, slot_eq_ok hs, ok_bind, edgesIn, if_pos hsound.window, ok_bind]
  rw [links_of_slot hs, List.map_map, adjoint_of_slot hs]
  apply mapM_eq_ok
  intro e he
  have hlt := hsound.earlier e.source (List.mem_map_of_mem he)
  rw [if_pos (by rw [size]; omega)]
  rfl

theorem links_of_edges_eq
    {u : Tape κ α}
    (hfresh : u.fresh = t.fresh)
    (hedges : u.edges = t.edges)
    (j : Nat) :
    u.links j = t.links j := by
  unfold links
  cases hs : t.slots[j]? with
  | none =>
      have hj := Array.getElem?_eq_none_iff.1 hs
      have husize : u.slots.size = t.slots.size := size_of_fresh_eq hfresh
      rw [Array.getElem?_eq_none (by omega)]
      rfl
  | some s =>
      obtain ⟨r, hr, -, hin, -⟩ := slot_of_fresh_eq hfresh.symm hs
      simp [hr, hin, edgeList, hedges]

/-- The storage after the places `done` of a reverse sweep: an adjoint is the fold of what
these have passed back. -/
structure ReverseInvariant (t : Tape κ α) (done : List Nat) (u : Tape κ α) : Prop where
  fresh : u.fresh = t.fresh
  edges : u.edges = t.edges
  value : ∀ i, u.value i = t.value i
  adjoint : ∀ i < t.size,
    u.adjoint i = (done.flatMap (passed t.links u.adjoint i)).foldl (· + ·) (t.seedAt i)

theorem ReverseInvariant.start (t : Tape κ α) : t.ReverseInvariant [] t.seed := by
  constructor
  · exact fresh_seed t
  · rfl
  · exact value_seed t
  · intro i hi
    exact adjoint_seed t hi

/-- The next place passes back to lower places only, so neither its own adjoint nor that of a
place done before changes. -/
theorem ReverseInvariant.addAdjoints
    {done : List Nat} {u : Tape κ α} {j : Nat}
    (ht : t.Sound)
    (hu : t.ReverseInvariant done u)
    (hdone : ∀ k ∈ done, j < k ∧ k < t.size)
    (hj : j < t.size) :
    t.ReverseInvariant (done ++ [j])
      (u.addAdjoints ((t.links j).map fun l => (l.1, u.adjoint j * l.2))) := by
  have husize : u.size = t.size := size_of_fresh_eq hu.fresh
  have hadd : ∀ i < t.size,
      (u.addAdjoints ((t.links j).map fun l => (l.1, u.adjoint j * l.2))).adjoint i =
        (passed t.links u.adjoint i j).foldl (· + ·) (u.adjoint i) := by
    intro i hi
    rw [adjoint_addAdjoints u _ (by omega), List.filterMap_map]
    rfl
  have hkeep : ∀ k < t.size, j ≤ k →
      (u.addAdjoints ((t.links j).map fun l => (l.1, u.adjoint j * l.2))).adjoint k =
        u.adjoint k := by
    intro k hk hjk
    rw [hadd k hk, passed_eq_nil]
    · rfl
    · intro l hl
      have := lt_of_mem_links ht hl
      omega
  constructor
  · rw [fresh_addAdjoints]
    exact hu.fresh
  · rw [edges_addAdjoints]
    exact hu.edges
  · intro i
    rw [value_addAdjoints]
    exact hu.value i
  · intro i hi
    have hsame : ∀ k ∈ done ++ [j],
        passed t.links
          (u.addAdjoints ((t.links j).map fun l => (l.1, u.adjoint j * l.2))).adjoint i k =
            passed t.links u.adjoint i k := by
      intro k hk
      apply passed_congr
      intro _
      rw [List.mem_append, List.mem_singleton] at hk
      rcases hk with hk | rfl
      · obtain ⟨hjk, hk⟩ := hdone k hk
        exact hkeep k hk (by omega)
      · exact hkeep k hj (Nat.le_refl k)
    rw [List.flatMap_congr hsame, List.flatMap_append, List.foldl_append, ← hu.adjoint i hi,
      hadd i hi]
    simp

/-- A reverse sweep of a sound tape solves the equations of the adjoints for the weights that
the edges hold. -/
theorem reverse_spec
    (ht : t.Sound) :
    ∃ u, t.reverse = (.ok (), u) ∧ u.fresh = t.fresh ∧ u.edges = t.edges ∧
      (∀ i, u.value i = t.value i) ∧ t.Adjoints t.links u.adjoint := by
  obtain ⟨u, hu, hinv⟩ : ∃ u,
      sweep contributions (fun (t : Tape κ α) _ amounts => t.addAdjoints amounts)
        t.computed.reverse t.seed = (.ok (), u) ∧
        t.ReverseInvariant t.computed.reverse u := by
    refine sweep_run (ReverseInvariant.start t) ?_
    intro done j rest u hplaces hu
    have hmem : ∀ k ∈ done ++ j :: rest, k < t.size := by
      intro k hk
      rw [← hplaces, List.mem_reverse, mem_computed] at hk
      have := ht.dimension_le
      omega
    have hj := hmem j (by simp)
    have hus := ht.of_fresh_eq hu.fresh.symm
    obtain ⟨s, hs⟩ := exists_slot (t := u) (i := j) (by
      rw [size_of_fresh_eq hu.fresh]
      exact hj)
    refine ⟨_, contributions_eq_ok hus hs, ?_⟩
    rw [links_of_edges_eq hu.fresh hu.edges]
    refine hu.addAdjoints ht ?_ hj
    intro k hk
    exact ⟨lt_of_reverse_range'_eq_append hplaces hk, hmem k (by simp [hk])⟩
  rw [reverse_eq]
  exact ⟨u, hu, hinv.fresh, hinv.edges, hinv.value, hinv.adjoint⟩

end Reverse

section Runs

variable [Scalar κ α] {t : Tape κ α} {point : List α}

theorem gradient_eq
    (h : t.dimension ≤ t.size) :
    t.gradient = (List.range t.dimension).map t.adjoint := by
  apply List.ext_getElem?
  intro i
  rw [gradient, List.getElem?_map, Array.getElem?_toList, Array.getElem?_extract,
    List.getElem?_map]
  by_cases hi : i < t.dimension
  · obtain ⟨s, hs⟩ := exists_slot (t := t) (i := i) (by omega)
    rw [size] at h
    rw [if_pos (by omega), Nat.zero_add, List.getElem?_range hi, hs, Option.map_some,
      Option.map_some, adjoint_of_slot hs]
  · rw [if_neg (by omega), List.getElem?_eq_none (by simpa using hi)]
    rfl

variable [Exponent κ]

/-- Evaluating a sound tape returns the value of its last slot. -/
theorem evaluate_spec
    (ht : t.Sound)
    (hreg : t.HandlesRegistered)
    (hpos : 0 < t.size)
    (hp : point.length = t.dimension) :
    ∃ u, t.evaluate point = (.ok (u.value (t.size - 1)), u) ∧ u.fresh = t.fresh ∧
      t.Valuation point u.value := by
  obtain ⟨u, hu, hfresh, hval, -, -⟩ := forward_spec ht hreg hp
  have hsize := size_of_fresh_eq hfresh
  refine ⟨u, ?_, hfresh, hval⟩
  rw [evaluate, hu]
  simp only [outputValue_eq (t := u) (by omega), hsize]

/-- Differentiating a sound tape returns the value of its last slot and the adjoints of its
variables for the weights that the edges hold: each the partial of the last slot that shows it. -/
theorem differentiate_holds
    (ht : t.Sound)
    (hreg : t.HandlesRegistered)
    (hpos : 0 < t.size)
    (hp : point.length = t.dimension) :
    ∃ u, t.differentiate point t.dimension =
        (.ok (u.value (t.size - 1), (List.range t.dimension).map u.adjoint), u) ∧
      u.fresh = t.fresh ∧ t.Valuation point u.value ∧
      (∀ k p, t.LastToShow t.computed k p → t.HoldsPartial u k p) ∧
      t.Adjoints u.links u.adjoint := by
  obtain ⟨w, hw, hwfresh, hval, hholds, -⟩ := forwardWithWeights_holds ht hreg hp
  obtain ⟨u, hu, hufresh, huedges, huvalue, hadj⟩ := reverse_spec (ht.of_fresh_eq hwfresh.symm)
  have hfresh : u.fresh = t.fresh := hufresh.trans hwfresh
  have hsize := size_of_fresh_eq hfresh
  have hdim := dimension_of_fresh_eq hfresh
  have hvaleq : u.value = w.value := funext huvalue
  refine ⟨u, ?_, hfresh, ?_, ?_, ?_⟩
  · have hle := ht.dimension_le
    rw [differentiate, if_pos rfl, hw]
    simp only [hu, outputValue_eq (t := u) (by omega), map_ok,
      gradient_eq (t := u) (by omega), hdim, hsize]
  · rw [hvaleq]
    exact hval
  · intro k p hlast
    obtain ⟨s, e, hs, he, hweight⟩ := hholds k p hlast
    exact ⟨s, e, hs, huedges ▸ he, hvaleq ▸ hweight⟩
  · exact (hadj.of_fresh_eq hwfresh).of_links_eq fun j _ =>
      (links_of_edges_eq hufresh huedges j).symm

/-- Where the windows do not overlap, the weights are the partials of the slots. -/
theorem differentiate_spec
    (ht : t.Sound)
    (hreg : t.HandlesRegistered)
    (htiled : t.Tiled)
    (hpos : 0 < t.size)
    (hp : point.length = t.dimension) :
    ∃ u, t.differentiate point t.dimension =
        (.ok (u.value (t.size - 1), (List.range t.dimension).map u.adjoint), u) ∧
      u.fresh = t.fresh ∧ t.Valuation point u.value ∧
      t.Adjoints (t.linksAt u.value) u.adjoint ∧
      ∀ j ∈ t.computed, u.links j = t.linksAt u.value j := by
  obtain ⟨u, hu, hfresh, hval, hholds, hadj⟩ := differentiate_holds ht hreg hpos hp
  have hlinks : ∀ j ∈ t.computed, u.links j = t.linksAt u.value j := by
    intro j hj
    obtain ⟨hjd, hjs⟩ := mem_computed.1 hj
    obtain ⟨s, hs⟩ := exists_slot (t := t) (i := j) (by omega)
    obtain ⟨r, hr, hop, hin, -⟩ := slot_of_fresh_eq hfresh.symm hs
    rw [links_of_slot hr, linksAt_of_slot hs,
      ← weightsIn_of_holds ht hreg htiled hholds hs hjd, ← hin,
      ← sourcesIn_of_fresh_eq hfresh, sourcesIn, weightsIn, List.zip_map']
  exact ⟨u, hu, hfresh, hval, hadj.of_links_eq hlinks, hlinks⟩

end Runs
end Tape
end ReverseMode
