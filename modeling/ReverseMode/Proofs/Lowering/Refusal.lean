import ReverseMode.Proofs.Lowering.Layout

/-!
# Why a term has no tape

**Input.**  A term and a list of variables.

**Results.**
* `FirstRepeat`: the entry of a list that is the first to occur for a second time.  There is at
  most one (`FirstRepeat.unique`).
* `Refusal`: the errors that lowering may end with, each with its cause.
* `Lowerable.not_refusal`: a term that fits has no cause to be refused.
* `bindAll_outcome`: binding the variables lays them out or finds the first repetition.
-/

namespace ReverseMode

section Repeats

variable {β : Type} {xs : List β} {x y : β} {first second : Nat}

/-- The entry at `second` occurs before, no earlier entry does, and it occurs first at `first`. -/
structure FirstRepeat (xs : List β) (x : β) (first second : Nat) : Prop where
  at_first : xs[first]? = some x
  at_second : xs[second]? = some x
  lt : first < second
  earliest : ∀ i < first, xs[i]? ≠ some x
  least : ∀ j < second, ∀ i < j, xs[i]? ≠ xs[j]?

theorem FirstRepeat.not_nodup
    (h : FirstRepeat xs x first second) :
    ¬ xs.Nodup := by
  intro hnodup
  have hsame := (List.getElem?_inj (List.getElem?_eq_some_iff.1 h.at_first).1 hnodup).1
    (h.at_first.trans h.at_second.symm)
  have hlt := h.lt
  omega

/-- A list has at most one first repetition. -/
theorem FirstRepeat.unique
    {first' second' : Nat}
    (h : FirstRepeat xs x first second)
    (h' : FirstRepeat xs y first' second') :
    x = y ∧ first = first' ∧ second = second' := by
  obtain rfl : second = second' := by
    rcases Nat.lt_trichotomy second second' with hlt | heq | hgt
    · exact absurd (h.at_first.trans h.at_second.symm) (h'.least second hlt first h.lt)
    · exact heq
    · exact absurd (h'.at_first.trans h'.at_second.symm) (h.least second' hgt first' h'.lt)
  obtain rfl : x = y := Option.some.inj (h.at_second.symm.trans h'.at_second)
  rcases Nat.lt_trichotomy first first' with hlt | heq | hgt
  · exact absurd h.at_first (h'.earliest first hlt)
  · exact ⟨rfl, heq, rfl⟩
  · exact absurd h'.at_first (h.earliest first' hgt)

/-- The first entry after distinct ones that is one of them. -/
theorem firstRepeat_of_nodup
    {before after : List β}
    (hnodup : before.Nodup)
    (hx : before[first]? = some x) :
    FirstRepeat (before ++ x :: after) x first before.length := by
  have hfirst := (List.getElem?_eq_some_iff.1 hx).1
  have hne : ∀ j < before.length, ∀ i < j, before[i]? ≠ before[j]? := by
    intro j hj i hij h
    have := (List.getElem?_inj (by omega) hnodup).1 h
    omega
  constructor
  · rw [List.getElem?_append_left hfirst, hx]
  · simp
  · exact hfirst
  · intro i hi h
    rw [List.getElem?_append_left (by omega)] at h
    exact hne first hfirst i hi (h.trans hx.symm)
  · intro j hj i hij
    rw [List.getElem?_append_left (by omega), List.getElem?_append_left hj]
    exact hne j hj i hij

end Repeats

namespace Graph

variable {κ α : Type} [Exponent κ] {g : Graph κ α}
variable {root : g.Term} {vs : List g.Variable}

section Order

theorem mem_vars
    {v : g.Variable} :
    v ∈ g.vars root ↔ g.Reaches root v.1 := by
  rw [vars_eq_filterMap, List.mem_filterMap, ← mem_walk]
  constructor
  · rintro ⟨t, ht, hv⟩
    rwa [asVariable?_eq_some_iff.1 hv]
  · exact fun hv => ⟨v.1, hv, asVariable?_eq_some_iff.2 rfl⟩

/-- Over the slots of the variables, a pass meets the other terms in the order of a walk. -/
theorem visit_slotTerms (root : g.Term) (vs : List g.Variable) :
    g.visit (slotTerms vs []) root =
      slotTerms vs ((g.walk root).filter (· ∉ vs.map fun v => v.1)) := by
  have hleaves : ∀ t ∈ vs.map (fun v => v.1), g.operands t = [] := by
    intro t ht
    obtain ⟨v, -, rfl⟩ := List.mem_map.1 ht
    exact operands_of_isVariable v.2
  rw [walk_eq_visit]
  exact visit_seeded hleaves [] root

/-- The variables that a list misses, in the order of a walk. -/
theorem filter_vars (root : g.Term) (vs : List g.Variable) :
    (g.vars root).filter (· ∉ vs) =
      ((g.walk root).filter (· ∉ vs.map fun v => v.1)).filterMap g.asVariable? := by
  rw [vars_eq_filterMap, List.filter_filterMap, List.filterMap_filter]
  apply List.filterMap_congr
  intro t _
  cases hvar : g.asVariable? t with
  | none => simp
  | some v =>
      obtain rfl := asVariable?_eq_some_iff.1 hvar
      have hmem : v.1 ∈ vs.map (fun v => v.1) ↔ v ∈ vs := by
        rw [List.mem_map]
        exact ⟨fun ⟨w, hw, hwv⟩ => Subtype.ext hwv ▸ hw, fun hv => ⟨v, hv, rfl⟩⟩
      simp only [Option.filter, hmem]

end Order

section Causes

/-- A list of distinct variables that has all those of a term. -/
def Covers (vs : List g.Variable) (root : g.Term) : Prop :=
  vs.Nodup ∧ ∀ x ∈ g.vars root, x ∈ vs

/-- The first variable of a term that a list misses, in the order in which a walk meets them. -/
def FirstMissing (vs : List g.Variable) (root : g.Term) (x : g.Variable) : Prop :=
  (g.vars root).find? (· ∉ vs) = some x

theorem FirstMissing.not_covers
    {x : g.Variable}
    (h : FirstMissing vs root x) :
    ¬ Covers vs root := by
  intro hcovers
  have hmissing := List.find?_some h
  exact of_decide_eq_true hmissing (hcovers.2 x (List.mem_of_find?_eq_some h))

theorem Lowerable.covers
    (hl : g.Lowerable root vs) :
    Covers vs root :=
  ⟨hl.nodup, fun x hx => hl.bound x (mem_vars.1 hx)⟩

/-- The errors with which lowering a term may end, and their causes: the variables repeat, the
first variable that the term reads and the list misses, or more slots than there are indices. -/
inductive Refusal (root : g.Term) (vs : List g.Variable) : Error κ → Prop where
  | duplicate {v : g.Variable} {first second : Nat} :
      FirstRepeat vs v first second → Refusal root vs (.binding (.duplicate v.1 first second))
  | unbound {v : g.Variable} :
      vs.Nodup → FirstMissing vs root v → Refusal root vs (.binding (.unbound v.1))
  | tooLong :
      indexLimit < vs.length + (g.computedBelow root).card + g.wrappers root →
        Refusal root vs (.fault .tapeTooLong)

/-- A term that fits is not refused. -/
theorem Lowerable.not_refusal
    {e : Error κ}
    (hl : g.Lowerable root vs) :
    ¬ Refusal root vs e := by
  rintro (hrepeat | ⟨-, hmissing⟩ | htooLong)
  · exact hrepeat.not_nodup hl.nodup
  · exact hmissing.not_covers hl.covers
  · have hfit := hl.slots_fit
    omega

end Causes

section Binding

variable [Scalar κ α] {v : g.Variable} {tape : Tape κ α} {slots : g.Table (Option Nat)}

/-- A tape of distinct variables and nothing else, and the table of their slots. -/
structure Binds (vs : List g.Variable) (tape : Tape κ α) (slots : g.Table (Option Nat)) :
    Prop where
  nodup : vs.Nodup
  fits : vs.length ≤ indexLimit
  size : tape.size = vs.length
  dimension : tape.dimension = vs.length
  inputs : tape.slots = Array.replicate vs.length
    { op := .input, value := 0, adjoint := 0, inputs := Window.ofNat 0 0 }
  edges : tape.edges = #[]
  callbacks : tape.callbacks = {}
  callbackCount : tape.callbackCount = 0
  located : Locates slots (vs.map fun v => v.1)

theorem binds_nil : Binds ([] : List g.Variable) {} (g.table none) := by
  constructor
  · exact List.nodup_nil
  · exact Nat.zero_le _
  · rfl
  · rfl
  · rfl
  · rfl
  · rfl
  · rfl
  · exact locates_nil

/-- A further variable has the next slot. -/
theorem Binds.push
    (h : Binds vs tape slots)
    (hv : v.1 ∉ vs.map fun v => v.1)
    (hlt : tape.size < indexLimit) :
    Binds (vs ++ [v]) ({ tape with dimension := tape.dimension + 1 }.withSlot .input 0 [])
      (g.enterAt slots v.1 (some tape.size)) := by
  have hlength : (vs ++ [v]).length = tape.size + 1 := by
    rw [List.length_append, h.size]
    rfl
  constructor
  · rw [List.nodup_append]
    refine ⟨h.nodup, by simp, ?_⟩
    rintro w hw _ hwv rfl
    rw [List.mem_singleton] at hwv
    exact hv (List.mem_map_of_mem (f := fun v : g.Variable => v.1) (hwv ▸ hw))
  · rw [hlength]
    exact hlt
  · rw [Tape.size_withSlot, hlength]
    rfl
  · rw [hlength, h.size, ← h.dimension]
    rfl
  · rw [Tape.slots_withSlot, h.inputs, hlength, h.size, Array.replicate_succ, h.edges]
    rfl
  · rw [Tape.edges_withSlot, h.edges]
    rfl
  · exact h.callbacks
  · rw [Tape.callbackCount_withSlot]
    exact h.callbackCount
  · have hlocated := h.located.push hv
    rw [List.length_map, ← h.size] at hlocated
    rwa [List.map_append]

/-- Binding a further variable gives it the next slot. -/
theorem Binds.bindFrom_cons
    (h : Binds vs tape slots)
    (hv : v.1 ∉ vs.map fun v => v.1)
    (hlt : tape.size < indexLimit)
    (more : List g.Variable) :
    g.bindFrom vs.length (v :: more) (tape, slots) =
      g.bindFrom (vs ++ [v]).length more
        ({ tape with dimension := tape.dimension + 1 }.withSlot .input 0 [],
          g.enterAt slots v.1 (some tape.size)) := by
  rw [bindFrom, h.located.get_eq_none hv,
    Tape.pushInput_of_lt (h.size.trans h.dimension.symm) hlt, List.length_append]
  rfl

/-- Binding variables after others gives each the next slot, or ends at the first that is one of
those before. -/
theorem bindFrom_outcome
    {before : List g.Variable}
    (root : g.Term) (vs : List g.Variable)
    (h : Binds before tape slots) :
    (∃ r, g.bindFrom before.length vs (tape, slots) = .ok r ∧ Binds (before ++ vs) r.1 r.2) ∨
      ∃ e, g.bindFrom before.length vs (tape, slots) = .error e ∧
        Refusal root (before ++ vs) e := by
  induction vs generalizing before tape slots with
  | nil =>
      rw [List.append_nil]
      exact .inl ⟨(tape, slots), rfl, h⟩
  | cons v vs ih =>
      have hdimension : tape.size = tape.dimension := h.size.trans h.dimension.symm
      by_cases hmem : v.1 ∈ before.map fun v => v.1
      · right
        obtain ⟨first, hfirst⟩ := List.mem_iff_getElem?.1 hmem
        refine ⟨.binding (.duplicate v.1 first before.length), ?_, .duplicate ?_⟩
        · rw [bindFrom, (h.located v.1 first).2 hfirst]
        · rw [List.getElem?_map, Option.map_eq_some_iff] at hfirst
          obtain ⟨w, hw, hwv⟩ := hfirst
          obtain rfl : w = v := Subtype.ext hwv
          exact firstRepeat_of_nodup h.nodup hw
      · by_cases hlt : tape.size < indexLimit
        · rw [h.bindFrom_cons hmem hlt, List.append_cons before v vs]
          exact ih (h.push hmem hlt)
        · right
          refine ⟨.fault .tapeTooLong, ?_, .tooLong ?_⟩
          · rw [bindFrom, h.located.get_eq_none hmem,
              Tape.pushInput_of_le hdimension (Nat.le_of_not_lt hlt)]
          · have hsize := h.size
            rw [List.length_append, List.length_cons]
            omega

/-- Binding the variables lays them out, or ends at the first repetition. -/
theorem bindAll_outcome (root : g.Term) (vs : List g.Variable) :
    (∃ r, g.bindAll vs = .ok r ∧ Binds vs r.1 r.2) ∨
      ∃ e, g.bindAll vs = .error e ∧ Refusal root vs e :=
  bindFrom_outcome root vs binds_nil

end Binding
end Graph
end ReverseMode
