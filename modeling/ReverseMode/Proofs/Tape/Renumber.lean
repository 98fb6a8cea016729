import ReverseMode.Proofs.Tape.Equations

/-!
# Tapes whose variables have other slots

A renumbering gives the slots of a tape other numbers in a tape with more variables.  The slots of
variables become slots of variables, in any order, and the slots after them keep their order.  A
tape is renumbered into another when its slots are found there at their new numbers, and the edges
of the other tape are its edges, which name the new numbers.  So the other tape may have variables
that no edge names.  Windows stand where they were, also those of a tape that has outgrown 32 bits.

**Argument.**  Both tapes are swept side by side.  Whatever reads a slot reads the same on both
sides, and whatever is written goes to the new number, so each write keeps the relation.  The
computed slots keep their order, so both sides pass over them alike.  Nothing is passed back to a
variable that no edge names, so its adjoint stays 0.

**Results.**
* `Renumbered.evaluate`: at points that are renumbered alike, both tapes return the same value.
* `Renumbered.differentiate`: they return the same value, and gradients that are renumbered alike,
  with 0 for each variable that the first tape does not have.
-/

namespace ReverseMode

section Numbers

/-- New numbers for the slots of a tape with `n` variables in a tape with `m`. -/
structure Renumbering (n m : Nat) where
  toFun : Nat → Nat
  injective : toFun.Injective
  shifted : ∀ i, n ≤ i → toFun i + n = i + m

instance {n m : Nat} : CoeFun (Renumbering n m) fun _ => Nat → Nat :=
  ⟨Renumbering.toFun⟩

variable {n m : Nat}

theorem Renumbering.eq_iff
    (σ : Renumbering n m)
    {i j : Nat} :
    σ i = σ j ↔ i = j :=
  σ.injective.eq_iff

/-- The slots of the one tape go where the other tape has slots. -/
theorem Renumbering.lt_iff
    (σ : Renumbering n m)
    {i k l : Nat}
    (hk : n ≤ k)
    (hl : l + n = k + m) :
    σ i < l ↔ i < k := by
  by_cases hi : n ≤ i
  · have := σ.shifted i hi
    omega
  · -- A variable that moved past `m` would share its number with a slot that stands there.
    have hσ : σ i < m := by
      by_contra hge
      have hsame := σ.shifted (σ i - m + n) (by omega)
      have hback := σ.injective (show σ i = σ (σ i - m + n) by omega)
      omega
    omega

theorem Renumbering.lt_inputs_iff
    (σ : Renumbering n m)
    {i : Nat} :
    σ i < m ↔ i < n :=
  σ.lt_iff (Nat.le_refl n) (Nat.add_comm m n)

/-- Only the last slot has the number of the last slot, unless it is a variable. -/
theorem Renumbering.eq_last_iff
    (σ : Renumbering n m)
    {i k l : Nat}
    (hk : n < k)
    (hl : l + n = k + m) :
    σ i = l - 1 ↔ i = k - 1 := by
  have hlast : σ (k - 1) = l - 1 := by
    have := σ.shifted (k - 1) (by omega)
    omega
  rw [← hlast, σ.eq_iff]

/-- The slots after the variables keep their order. -/
theorem Renumbering.map_range'
    (σ : Renumbering n m)
    (count : Nat) :
    (List.range' n count).map σ = List.range' m count := by
  apply List.ext_getElem
  · simp
  · intro k _ hk
    rw [List.getElem_map, List.getElem_range', List.getElem_range']
    have := σ.shifted (n + 1 * k) (by omega)
    omega

/-- The list `ys` has the entries of `xs` at their new numbers. -/
structure Renumbering.Moves {β : Type} (σ : Renumbering n m) (xs ys : List β) : Prop where
  length : xs.length = n
  length' : ys.length = m
  getElem? : ∀ i < n, ys[σ i]? = xs[i]?

/-- The other entries of `ys` are `d`. -/
structure Renumbering.Pads {β : Type} (σ : Renumbering n m) (d : β) (xs ys : List β) : Prop extends
    σ.Moves xs ys where
  rest : ∀ j < m, (∀ i, σ i ≠ j) → ys[j]? = some d

/-- The entries of a list have new numbers in every list that has them all. -/
theorem exists_renumbering
    {β : Type} [BEq β] [LawfulBEq β] {xs ys : List β}
    (hnodup : xs.Nodup)
    (hsub : xs ⊆ ys) :
    ∃ σ : Renumbering xs.length ys.length, σ.Moves xs ys := by
  have hmem : ∀ i, (hi : i < xs.length) → xs[i] ∈ ys := fun i hi => hsub (List.getElem_mem hi)
  have hlt : ∀ i, (hi : i < xs.length) → ys.idxOf xs[i] < ys.length :=
    fun i hi => List.idxOf_lt_length_of_mem (hmem i hi)
  refine ⟨⟨fun i => if hi : i < xs.length then ys.idxOf xs[i] else i - xs.length + ys.length,
    ?_, ?_⟩, rfl, rfl, ?_⟩
  · intro i j hij
    by_cases hi : i < xs.length <;> by_cases hj : j < xs.length
    · simp only [hi, hj, dif_pos] at hij
      exact (List.getElem_inj hnodup).1 ((List.idxOf_inj (hmem i hi)).1 hij)
    · have := hlt i hi
      simp only [hi, hj, dif_pos, dif_neg, not_false_eq_true] at hij
      omega
    · have := hlt j hj
      simp only [hi, hj, dif_pos, dif_neg, not_false_eq_true] at hij
      omega
    · simp only [hi, hj, dif_neg, not_false_eq_true] at hij
      omega
  · intro i hi
    simp only [show ¬ i < xs.length by omega, dif_neg, not_false_eq_true]
    omega
  · intro i hi
    simp only [dif_pos hi]
    rw [List.getElem?_idxOf (hmem i hi), List.getElem?_eq_getElem hi]

/-- The new number of a place is the place of the same entry. -/
theorem Renumbering.Moves.eq_idxOf
    {β : Type} [BEq β] [LawfulBEq β] {σ : Renumbering n m} {xs ys : List β}
    (h : σ.Moves xs ys)
    (hnodup : ys.Nodup)
    {i : Nat} {x : β}
    (hx : xs[i]? = some x) :
    σ i = ys.idxOf x := by
  have hi : i < n := h.length ▸ (List.getElem?_eq_some_iff.1 hx).1
  have hσ : σ i < ys.length := h.length' ▸ σ.lt_inputs_iff.2 hi
  have hy := (h.getElem? i hi).trans hx
  rw [List.getElem?_eq_getElem hσ] at hy
  rw [← Option.some.inj hy, hnodup.idxOf_getElem (σ i) hσ]

/-- Lists of values move like lists of names, where the values stand at their names. -/
theorem Renumbering.Moves.values
    {β γ : Type} [BEq β] [LawfulBEq β] {σ : Renumbering n m} {xs ys : List β} {bs : List γ}
    {f : β → γ}
    (h : σ.Moves xs ys)
    (hnodup : ys.Nodup)
    (hlen : bs.length = ys.length)
    (hvalues : ∀ x ∈ xs, bs[ys.idxOf x]? = some (f x)) :
    σ.Moves (xs.map f) bs := by
  refine ⟨by rw [List.length_map, h.length], by rw [hlen, h.length'], fun i hi => ?_⟩
  have hlt : i < xs.length := h.length ▸ hi
  have hx : xs[i]? = some xs[i] := List.getElem?_eq_getElem hlt
  rw [List.getElem?_map, hx, h.eq_idxOf hnodup hx]
  exact hvalues _ (List.mem_of_getElem? hx)

/-- Lists that move like a list of names give each name one entry, and `d` to each name that is not
moved. -/
theorem Renumbering.Pads.exists_map
    {β γ : Type} [BEq β] [LawfulBEq β] {σ : Renumbering n m} {xs ys : List β} {as bs : List γ}
    {d : γ}
    (h' : σ.Pads d as bs)
    (h : σ.Moves xs ys)
    (hnodup : xs.Nodup)
    (hnodup' : ys.Nodup) :
    ∃ f : β → γ, (∀ y ∉ xs, f y = d) ∧ as = xs.map f ∧ bs = ys.map f := by
  have hlen := h.length
  have hlen' := h.length'
  have hwidth := h'.length
  have hlt : ∀ x ∈ xs, xs.idxOf x < n := fun x hx => hlen ▸ List.idxOf_lt_length_of_mem hx
  refine ⟨fun x => as[xs.idxOf x]?.getD d, ?_, ?_, ?_⟩
  · intro y hy
    show as[xs.idxOf y]?.getD d = d
    rw [List.idxOf_eq_length hy, List.getElem?_eq_none (by omega), Option.getD_none]
  · apply List.ext_getElem (by rw [List.length_map, h'.length, hlen])
    intro i hi hi'
    have hx : i < xs.length := by simpa using hi'
    rw [List.getElem_map, hnodup.idxOf_getElem i hx, List.getElem?_eq_getElem hi, Option.getD_some]
  · apply List.ext_getElem (by rw [List.length_map, h'.length', hlen'])
    intro j hj hj'
    have hy : j < ys.length := by simpa using hj'
    rw [List.getElem_map]
    by_cases hmem : ys[j] ∈ xs
    · -- The place of a name in `xs` has the number of its place in `ys`.
      have hσ : σ (xs.idxOf ys[j]) = j := by
        rw [h.eq_idxOf hnodup' (List.getElem?_idxOf hmem), hnodup'.idxOf_getElem j hy]
      have hplace := h'.getElem? _ (hlt _ hmem)
      rw [hσ, List.getElem?_eq_getElem hj] at hplace
      rw [← hplace, Option.getD_some]
    · have hunmoved : ∀ i, σ i ≠ j := by
        rintro i rfl
        have hi := σ.lt_inputs_iff.1 (hlen' ▸ hy)
        have hname := h.getElem? i hi
        rw [List.getElem?_eq_getElem hy] at hname
        exact hmem (List.mem_of_getElem? hname.symm)
      have hrest := h'.rest j (hlen' ▸ hy) hunmoved
      rw [List.getElem?_eq_getElem hj] at hrest
      rw [List.idxOf_eq_length hmem, List.getElem?_eq_none (by omega), Option.getD_none]
      exact Option.some.inj hrest

end Numbers

variable {κ α : Type} {n m : Nat}

/-- An edge that names the new number of its source. -/
def Edge.renumber (σ : Nat → Nat) (e : Edge α) : Edge α :=
  { e with source := σ e.source }

namespace Tape

variable {σ : Renumbering n m} {t u : Tape κ α}

section Defs

/-- The slots of the tape `t`, whose first `n` are the variables, have new numbers in the tape
`u`. -/
structure Renumbered (σ : Renumbering n m) (t u : Tape κ α) : Prop where
  dimension : t.dimension = n
  dimension' : u.dimension = m
  le_size : n ≤ t.size
  callbacks : u.callbacks = t.callbacks
  size : u.size + n = t.size + m
  slots : ∀ i, u.slots[σ i]? = t.slots[i]?
  edges : u.edges = t.edges.map (Edge.renumber σ)

/-- The adjoints of all other slots are 0. -/
def Idle [Zero α] (σ : Renumbering n m) (u : Tape κ α) : Prop :=
  ∀ j s, (∀ i, σ i ≠ j) → u.slots[j]? = some s → s.adjoint = 0

end Defs

section Slots

theorem Renumbered.slot
    (h : Renumbered σ t u)
    (i : Nat) :
    u.slot (σ i) = t.slot i := by
  rw [Tape.slot, Tape.slot, h.slots]

theorem Renumbered.valueAt
    (h : Renumbered σ t u)
    (i : Nat) :
    u.valueAt (σ i) = t.valueAt i := by
  rw [Tape.valueAt, Tape.valueAt, h.slot]

theorem Renumbered.edgesIn
    (h : Renumbered σ t u)
    (w : Window) :
    u.edgesIn w = (t.edgesIn w).map (List.map (Edge.renumber σ)) := by
  rw [Tape.edgesIn, Tape.edgesIn, h.edges, Array.size_map]
  split
  · rw [← Array.map_extract, Array.toList_map]
    rfl
  · rfl

theorem Renumbered.sourcesIn
    (h : Renumbered σ t u)
    (w : Window) :
    u.sourcesIn w = (t.sourcesIn w).map σ := by
  rw [Tape.sourcesIn, Tape.sourcesIn, edgeList, edgeList, h.edges, ← Array.map_extract,
    Array.toList_map, List.map_map, List.map_map]
  rfl

theorem Renumbered.operandValues
    (h : Renumbered σ t u)
    (i : Nat) :
    u.operandValues (σ i) = t.operandValues i := by
  rw [Tape.operandValues, Tape.operandValues, inputs, inputs, h.slot]
  cases t.slot i with
  | error e => rfl
  | ok s =>
      rw [ok_bind, ok_bind, h.edgesIn]
      cases t.edgesIn s.inputs with
      | error e => rfl
      | ok es =>
          rw [map_ok, ok_bind, ok_bind, List.mapM_map]
          exact mapM_congr fun e _ => h.valueAt e.source

theorem Renumbered.lt_size_iff
    (h : Renumbered σ t u)
    {i : Nat} :
    σ i < u.size ↔ i < t.size :=
  σ.lt_iff h.le_size h.size

/-- The output is no variable, so it is the last slot on both sides. -/
theorem Renumbered.eq_last_iff
    (h : Renumbered σ t u)
    (hlt : n < t.size)
    {i : Nat} :
    σ i = u.size - 1 ↔ i = t.size - 1 :=
  σ.eq_last_iff hlt h.size

theorem Renumbered.outputValue
    (h : Renumbered σ t u)
    (hlt : n < t.size) :
    u.outputValue = t.outputValue := by
  have hlast := h.valueAt (t.size - 1)
  rw [(h.eq_last_iff hlt).2 rfl] at hlast
  have hsize := h.size
  have hempty : t.isEmpty = false := decide_eq_false (p := t.size = 0) (by omega)
  have hempty' : u.isEmpty = false := decide_eq_false (p := u.size = 0) (by omega)
  rw [Tape.outputValue, Tape.outputValue, outputIndex, outputIndex, hempty, hempty']
  exact hlast

theorem Renumbered.computed
    (h : Renumbered σ t u) :
    u.computed = t.computed.map σ := by
  have hsize : u.size - m = t.size - n := by
    have := h.size
    omega
  rw [Tape.computed, Tape.computed, h.dimension, h.dimension', hsize, σ.map_range']

theorem Renumbered.setValue
    (h : Renumbered σ t u)
    (i : Nat) (v : α) :
    Renumbered σ (t.setValue i v) (u.setValue (σ i) v) := by
  refine { h with le_size := ?_, size := ?_, slots := ?_ }
  · simpa [Tape.setValue, Tape.size] using h.le_size
  · simpa [Tape.setValue, Tape.size] using h.size
  · intro j
    simp only [Tape.setValue, Array.getElem?_modify, σ.eq_iff, h.slots]

theorem Renumbered.setWeights
    (h : Renumbered σ t u)
    (start : Nat) (ws : List α) :
    Renumbered σ (t.setWeights start ws) (u.setWeights start ws) := by
  induction ws generalizing t u start with
  | nil => exact h
  | cons w ws ih =>
      apply ih
      refine { h with edges := ?_ }
      apply Array.ext_getElem?
      intro p
      rw [h.edges, Array.getElem?_map, Array.getElem?_modify, Array.getElem?_modify,
        Array.getElem?_map]
      split
      · rw [Option.map_map, Option.map_map]
        rfl
      · rfl

theorem Renumbered.setPartials
    (h : Renumbered σ t u)
    (i : Nat) (computed : α × List α) :
    Renumbered σ (t.setPartials i computed) (u.setPartials (σ i) computed) := by
  rw [Tape.setPartials, Tape.setPartials, h.slots]
  exact (h.setWeights _ _).setValue i computed.1

theorem gradient_getElem?
    {i : Nat}
    (hi : i < t.dimension)
    (hle : t.dimension ≤ t.slots.size) :
    t.gradient[i]? = t.slots[i]?.map Slot.adjoint := by
  rw [Tape.gradient, List.getElem?_map, Array.getElem?_toList, Array.getElem?_extract,
    if_pos (by omega), Nat.zero_add]

end Slots

variable [Scalar κ α]

section Reads

variable [Exponent κ]

theorem Renumbered.computedValue
    (h : Renumbered σ t u)
    (i : Nat) :
    u.computedValue (σ i) = t.computedValue i := by
  rw [Tape.computedValue, Tape.computedValue, h.slot, h.operandValues]
  simp only [opValue_congr h.callbacks]

theorem Renumbered.computedPartials
    (h : Renumbered σ t u)
    (i : Nat) :
    u.computedPartials (σ i) = t.computedPartials i := by
  rw [Tape.computedPartials, Tape.computedPartials, h.slot, h.operandValues]
  simp only [opValue_congr h.callbacks, opWeights_congr h.callbacks]

omit [Exponent κ] in
theorem Renumbered.contributions
    (h : Renumbered σ t u)
    (i : Nat) :
    u.contributions (σ i) = (t.contributions i).map (List.map fun a => (σ a.1, a.2)) := by
  rw [Tape.contributions, Tape.contributions, h.slot]
  cases t.slot i with
  | error e => rfl
  | ok s =>
      rw [ok_bind, ok_bind, h.edgesIn]
      cases t.edgesIn s.inputs with
      | error e => rfl
      | ok es =>
          rw [map_ok, ok_bind, ok_bind]
          refine mapM_mirror (Edge.renumber σ) _ ?_
          intro e _
          simp only [Edge.renumber, h.lt_size_iff]
          split <;> rfl

end Reads

section Writes

theorem Renumbered.addAdjoints
    (h : Renumbered σ t u)
    (amounts : List (Nat × α)) :
    Renumbered σ (t.addAdjoints amounts)
      (u.addAdjoints (amounts.map fun a => (σ a.1, a.2))) := by
  refine { h with le_size := ?_, size := ?_, slots := ?_ }
  · rw [size_of_fresh_eq (fresh_addAdjoints t amounts)]
    exact h.le_size
  · rw [size_of_fresh_eq (fresh_addAdjoints t amounts), size_of_fresh_eq (fresh_addAdjoints u _)]
    exact h.size
  · intro i
    rw [slots_addAdjoints, slots_addAdjoints, h.slots, List.filterMap_map]
    simp only [Function.comp_def, σ.eq_iff]

theorem Idle.addAdjoints
    (h : Idle σ u)
    (amounts : List (Nat × α)) :
    Idle σ (u.addAdjoints (amounts.map fun a => (σ a.1, a.2))) := by
  intro j s hj hs
  have hnone : (amounts.map fun a => (σ a.1, a.2)).filterMap
      (fun a => if a.1 = j then some a.2 else none) = [] := by
    rw [List.filterMap_eq_nil_iff]
    intro a ha
    obtain ⟨b, -, rfl⟩ := List.mem_map.1 ha
    exact if_neg (hj b.1)
  rw [slots_addAdjoints, hnone, Option.map_eq_some_iff] at hs
  obtain ⟨s₀, hs₀, rfl⟩ := hs
  exact h j s₀ hj hs₀

omit [Scalar κ α] in
theorem Renumbered.setPoint
    {point point' : List α}
    (h : Renumbered σ t u)
    (hpoint : σ.Moves point point') :
    Renumbered σ (t.setPoint point) (u.setPoint point') := by
  refine { h with le_size := ?_, size := ?_, slots := ?_ }
  · simpa using h.le_size
  · simpa using h.size
  · intro i
    have hlen := hpoint.length
    have hlen' := hpoint.length'
    by_cases hi : i < n
    · have hx : point[i]? = some point[i] := List.getElem?_eq_getElem (by omega)
      rw [slots_setPoint_lt t hx, slots_setPoint_lt u ((hpoint.getElem? i hi).trans hx), h.slots]
    · have hσ := σ.shifted i (by omega)
      rw [slots_setPoint_ge t (by omega), slots_setPoint_ge u (by omega), h.slots]

theorem Renumbered.seed
    (h : Renumbered σ t u)
    (hlt : n < t.size) :
    Renumbered σ t.seed u.seed := by
  refine { h with le_size := ?_, size := ?_, slots := ?_ }
  · simpa using h.le_size
  · simpa using h.size
  · intro i
    rw [slots_seed, slots_seed, h.slots]
    simp only [h.eq_last_iff hlt]

theorem Renumbered.idle_seed
    (h : Renumbered σ t u)
    (hlt : n < t.size) :
    Idle σ u.seed := by
  intro j s hj hs
  have hne : j ≠ u.size - 1 := by
    rintro rfl
    exact hj _ ((h.eq_last_iff hlt).2 rfl)
  rw [slots_seed, Option.map_eq_some_iff] at hs
  obtain ⟨s₀, -, rfl⟩ := hs
  exact if_neg hne

end Writes

section Sweeps

variable [Exponent κ] {point point' : List α}

theorem Renumbered.forward
    (h : Renumbered σ t u)
    (hpoint : σ.Moves point point') :
    (u.forward point').1 = (t.forward point).1 ∧
      Renumbered σ (t.forward point).2 (u.forward point').2 := by
  rw [forward_eq (hpoint.length.trans h.dimension.symm),
    forward_eq (hpoint.length'.trans h.dimension'.symm), h.computed]
  refine sweep_mirror σ id (h.setPoint hpoint) ?_
  intro i _ t u h
  refine ⟨?_, fun v _ => h.setValue i v⟩
  rw [Except.map_id, h.computedValue]
  rfl

theorem Renumbered.forwardWithWeights
    (h : Renumbered σ t u)
    (hpoint : σ.Moves point point') :
    (u.forwardWithWeights point').1 = (t.forwardWithWeights point).1 ∧
      Renumbered σ (t.forwardWithWeights point).2 (u.forwardWithWeights point').2 := by
  rw [forwardWithWeights_eq (hpoint.length.trans h.dimension.symm),
    forwardWithWeights_eq (hpoint.length'.trans h.dimension'.symm), h.computed]
  refine sweep_mirror σ id (h.setPoint hpoint) ?_
  intro i _ t u h
  refine ⟨?_, fun computed _ => h.setPartials i computed⟩
  rw [Except.map_id, h.computedPartials]
  rfl

omit [Exponent κ] in
theorem Renumbered.reverse
    (h : Renumbered σ t u)
    (hlt : n < t.size) :
    u.reverse.1 = t.reverse.1 ∧ Renumbered σ t.reverse.2 u.reverse.2 ∧ Idle σ u.reverse.2 := by
  rw [reverse_eq, reverse_eq, h.computed, ← List.map_reverse]
  refine sweep_mirror (R := fun t u => Renumbered σ t u ∧ Idle σ u) σ
    (List.map fun a => (σ a.1, a.2)) ⟨h.seed hlt, h.idle_seed hlt⟩ ?_
  intro i _ t u h
  exact ⟨h.1.contributions i, fun amounts _ => ⟨h.1.addAdjoints amounts, h.2.addAdjoints amounts⟩⟩

omit [Exponent κ] in
/-- The components of a gradient have the new numbers of the variables, and all others are 0. -/
theorem Renumbered.gradient
    (h : Renumbered σ t u)
    (hidle : Idle σ u) :
    σ.Pads 0 t.gradient u.gradient := by
  have hle : n ≤ t.slots.size := h.le_size
  have hsize : u.slots.size + n = t.slots.size + m := h.size
  have hdim := h.dimension
  have hdim' := h.dimension'
  refine ⟨⟨?_, ?_, fun i hi => ?_⟩, fun j hj hunmoved => ?_⟩
  · simp only [Tape.gradient, List.length_map, Array.length_toList, Array.size_extract]
    omega
  · simp only [Tape.gradient, List.length_map, Array.length_toList, Array.size_extract]
    omega
  · have hσ := σ.lt_inputs_iff.2 hi
    rw [gradient_getElem? (by omega) (by omega), gradient_getElem? (by omega) (by omega), h.slots]
  · have hs : u.slots[j]? = some u.slots[j] := Array.getElem?_eq_getElem (by omega)
    rw [gradient_getElem? (by omega) (by omega), hs, Option.map_some, hidle j _ hunmoved hs]

/-- At points that are renumbered alike, renumbered tapes return the same value. -/
theorem Renumbered.evaluate
    (h : Renumbered σ t u)
    (ht : t.Sound)
    (hlt : n < t.size)
    (hpoint : σ.Moves point point') :
    (u.evaluate point').1 = (t.evaluate point).1 := by
  obtain ⟨hout, hafter⟩ := h.forward hpoint
  have hsize := size_of_fresh_eq (fresh_forward ht point)
  rw [Tape.evaluate, Tape.evaluate]
  rcases hleft : t.forward point with ⟨o, t'⟩
  rcases hright : u.forward point' with ⟨o', u'⟩
  rw [hleft, hright] at hout hafter
  rw [hleft] at hsize
  obtain rfl : o' = o := hout
  cases o' with
  | error e => rfl
  | ok _ => exact hafter.outputValue (by omega)

/-- At such points they return the same value, and gradients that are renumbered alike. -/
theorem Renumbered.differentiate
    (h : Renumbered σ t u)
    (ht : t.Sound)
    (hlt : n < t.size)
    (hpoint : σ.Moves point point')
    {x : α} {gradient : List α}
    (hresult : (t.differentiate point n).1 = .ok (x, gradient)) :
    ∃ gradient', (u.differentiate point' m).1 = .ok (x, gradient') ∧
      σ.Pads 0 gradient gradient' := by
  obtain ⟨hout, hafter⟩ := h.forwardWithWeights hpoint
  have hsize := size_of_fresh_eq (fresh_forwardWithWeights ht point)
  rw [Tape.differentiate, if_pos h.dimension.symm] at hresult
  rw [Tape.differentiate, if_pos h.dimension'.symm]
  rcases hleft : t.forwardWithWeights point with ⟨o, t'⟩
  rcases hright : u.forwardWithWeights point' with ⟨o', u'⟩
  rw [hleft, hright] at hout hafter
  rw [hleft] at hsize hresult
  obtain rfl : o' = o := hout
  cases o' with
  | error e => cases hresult
  | ok _ =>
      obtain ⟨hout, hend, hidle⟩ := hafter.reverse (by omega)
      have hsize' := (size_of_fresh_eq (fresh_reverse t')).trans hsize
      rcases hleft : t'.reverse with ⟨o, t''⟩
      rcases hright : u'.reverse with ⟨o', u''⟩
      rw [hleft, hright] at hout hend
      rw [hright] at hidle
      rw [hleft] at hsize'
      simp only [hleft] at hresult
      simp only [hright]
      obtain rfl : o' = o := hout
      cases o' with
      | error e => cases hresult
      | ok _ =>
          obtain ⟨y, hy, hpair⟩ := map_eq_ok_iff.1 hresult
          obtain ⟨rfl, rfl⟩ := Prod.mk.inj hpair
          have houtput : u''.outputValue = t''.outputValue := hend.outputValue (by omega)
          refine ⟨u''.gradient, ?_, hend.gradient hidle⟩
          simp only [houtput, hy, map_ok]

end Sweeps
end Tape
end ReverseMode
