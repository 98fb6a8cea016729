import ReverseMode.Proofs.Lowering.Refusal

/-!
# The run that lowers a term

**Argument.**  Between two tasks, `Progress` holds: the tape is laid out, the table of slots
locates the terms of the layout, and `WorksOff` says that working off the stack leaves no term
before its operands.  Terms are appended in the order of a visit over the variables, and that is
the order of a walk.  Every slot is that of a term that the root reaches, so the distinct nodes
below the root bound the tables.

**Results.**
* `Progress.step`: a step keeps the invariant, or ends with an error that has its cause.
* `lower_outcome`: so does lowering, and where it succeeds the slots after the variables stand for
  the other terms in the order of a walk.
-/

namespace ReverseMode

namespace Graph

variable {κ α : Type} [Exponent κ] {g : Graph κ α}

section Stack

/-- Working off a stack when the terms `known` have slots leaves no term before its
operands. -/
def WorksOff (g : Graph κ α) : Set g.Term → List (Task g.Term) → Prop
  | _, [] => True
  | known, .enter t :: rest => g.WorksOff (insert t known) rest
  | known, .leave t :: rest =>
      (∀ u ∈ g.operands t, u ∈ known) ∧ g.WorksOff (insert t known) rest

variable {known known' : Set g.Term} {stack : List (Task g.Term)}

theorem WorksOff.mono
    (h : g.WorksOff known stack)
    (hsub : known ⊆ known') :
    g.WorksOff known' stack := by
  induction stack generalizing known known' with
  | nil => trivial
  | cons a rest ih =>
      cases a with
      | enter t => exact ih h (Set.insert_subset_insert hsub)
      | leave t =>
          obtain ⟨hoperands, hrest⟩ := h
          exact ⟨fun u hu => hsub (hoperands u hu), ih hrest (Set.insert_subset_insert hsub)⟩

/-- Entering some terms first makes them known. -/
theorem WorksOff.enter_all
    {ts : List g.Term}
    (h : g.WorksOff (known ∪ {t | t ∈ ts}) stack) :
    g.WorksOff known (ts.map Task.enter ++ stack) := by
  induction ts generalizing known with
  | nil => simpa using h
  | cons t ts ih =>
      rw [List.map_cons, List.cons_append, WorksOff]
      apply ih
      refine h.mono ?_
      rintro u (hu | hu)
      · exact .inl (.inr hu)
      · rcases List.mem_cons.1 hu with rfl | hu
        · exact .inl (.inl rfl)
        · exact .inr hu

/-- Expanding a term, where the operands that are not entered are known. -/
theorem WorksOff.expand
    {t : g.Term} {ts : List g.Term}
    (h : g.WorksOff known (.enter t :: stack))
    (hts : ∀ u ∈ g.operands t, u ∈ known ∨ u ∈ ts) :
    g.WorksOff known (ts.map Task.enter ++ .leave t :: stack) := by
  apply WorksOff.enter_all
  refine ⟨hts, ?_⟩
  rw [WorksOff] at h
  exact h.mono (Set.insert_subset_insert fun u hu => .inl hu)

end Stack

section Run

variable [Scalar κ α]

/-- The state between two tasks, where `done` are the terms that have been left. -/
structure Progress (root : g.Term) (vs : List g.Variable) (s : LoweringState g)
    (done : List g.Term) : Prop where
  sound : s.tape.Sound
  dimension : s.tape.dimension = vs.length
  size : s.tape.size = (slotTerms vs done).length
  fits : s.tape.size ≤ indexLimit
  edges : s.tape.edges.size = (done.map fun t => (g.operands t).length).sum
  unary : s.tape.callbacks.unary.size ≤ done.length
  binary : s.tape.callbacks.binary.size ≤ done.length
  nary : s.tape.callbacks.nary.size ≤ done.length
  registered : s.tape.HandlesRegistered
  uncalled : (∀ t ∈ done, (g.node t).callsFunction = false) → s.tape.callbacks = {}
  callbackCount : s.tape.callbackCount = done.countP fun t => (g.node t).callsFunction
  /-- The windows of the slots show their operands as long as there is a 32-bit offset for each
  edge. -/
  layout : ∑ t ∈ g.computedBelow root, (g.operands t).length < UInt32.size →
    Layout vs s.tape done
  located : Locates s.slots (slotTerms vs done)
  below : ∀ t ∈ done, t ∈ g.computedBelow root
  pending : ∀ a ∈ s.stack, g.Reaches root a.term
  leaving : ∀ t, .leave t ∈ s.stack → g.isVariable t = false
  worksOff : g.WorksOff {t | t ∈ slotTerms vs done} s.stack
  order : g.finish (slotTerms vs done) s.stack = g.visit (slotTerms vs []) root

variable {root : g.Term} {vs : List g.Variable} {s : LoweringState g} {done : List g.Term}

omit [Scalar κ α] in
/-- The distinct computed terms of a tape are not more than the root reaches. -/
theorem length_le_card
    (hnodup : done.Nodup)
    (hbelow : ∀ t ∈ done, t ∈ g.computedBelow root) :
    done.length ≤ (g.computedBelow root).card := by
  rw [← List.toFinset_card_of_nodup hnodup]
  exact Finset.card_le_card fun t ht => hbelow t (List.mem_toFinset.1 ht)

omit [Scalar κ α] in
theorem sum_arity_le
    (hnodup : done.Nodup)
    (hbelow : ∀ t ∈ done, t ∈ g.computedBelow root) :
    (done.map fun t => (g.operands t).length).sum ≤
      ∑ t ∈ g.computedBelow root, (g.operands t).length := by
  rw [← List.sum_toFinset _ hnodup]
  exact Finset.sum_le_sum_of_subset fun t ht => hbelow t (List.mem_toFinset.1 ht)

theorem Progress.nodup
    (h : Progress root vs s done) :
    done.Nodup :=
  (List.nodup_append.1 h.located.nodup).2.1

/-- No term that has been left is a variable. -/
theorem Progress.filterMap_asVariable?
    (h : Progress root vs s done) :
    done.filterMap g.asVariable? = [] := by
  rw [List.filterMap_eq_nil_iff]
  intro t ht
  rw [asVariable?, dif_neg]
  simp [(Graph.mem_computedBelow.1 (h.below t ht)).2]

section Steps

variable {tape : Tape κ α} {slots : g.Table (Option Nat)} {hits : Nat} {t : g.Term}
  {rest : List (Task g.Term)}

/-- A term that is met again is a hit. -/
theorem Progress.hit
    (h : Progress root vs ⟨tape, slots, hits, .enter t :: rest⟩ done)
    (ht : t ∈ slotTerms vs done) :
    ∃ r, g.lowerStep ⟨tape, slots, hits, .enter t :: rest⟩ = .ok r ∧
      Progress root vs r done := by
  refine ⟨⟨tape, slots, hits + 1, rest⟩, ?_, ?_⟩
  · rw [lowerStep, if_pos (h.located.isSome_iff.2 ht)]
  · refine { h with pending := ?_, leaving := ?_, worksOff := ?_, order := ?_ }
    · exact fun a ha => h.pending a (List.mem_cons_of_mem _ ha)
    · exact fun u hu => h.leaving u (List.mem_cons_of_mem _ hu)
    · have hrest : g.WorksOff (insert t {u | u ∈ slotTerms vs done}) rest := h.worksOff
      rwa [Set.insert_eq_of_mem (s := {u | u ∈ slotTerms vs done}) ht] at hrest
    · rw [← h.order]
      exact (finish_enter_of_mem ht).symm

/-- A variable that is met and has no slot is the first that the list misses. -/
theorem Progress.unbound
    (h : Progress root vs ⟨tape, slots, hits, .enter t :: rest⟩ done)
    (ht : t ∉ slotTerms vs done)
    (hvar : g.isVariable t = true)
    (hnodup : vs.Nodup) :
    ∃ e, g.lowerStep ⟨tape, slots, hits, .enter t :: rest⟩ = .error e ∧
      Refusal root vs e := by
  refine ⟨.binding (.unbound t), ?_, .unbound (v := ⟨t, hvar⟩) hnodup ?_⟩
  · rw [lowerStep, if_neg (h.located.isSome_iff.not.2 ht), if_pos hvar]
  · -- What the order of the pass has after `done` starts with `t`.
    obtain ⟨more, hmore⟩ := exists_finish_eq_append (slotTerms vs done ++ [t]) rest
    have horder : slotTerms vs done ++ [t] ++ more =
        slotTerms vs ((g.walk root).filter (· ∉ vs.map fun v => v.1)) := by
      rw [← visit_slotTerms, ← h.order, ← hmore]
      show _ = g.finish _ (.enter t :: rest)
      rw [finish_enter, visit_of_not_mem ht, operands_of_isVariable hvar, visitAll_nil]
    rw [← slotTerms_append, ← slotTerms_append] at horder
    have hwalk := List.append_cancel_left horder
    rw [FirstMissing, ← List.head?_filter, filter_vars, ← hwalk, List.append_assoc,
      List.filterMap_append, h.filterMap_asVariable?]
    have hsome : g.asVariable? t = some ⟨t, hvar⟩ := asVariable?_eq_some_iff.2 rfl
    rw [List.nil_append, List.singleton_append, List.filterMap_cons_some hsome]
    rfl

/-- Any other term that is met first is left after its operands. -/
theorem Progress.expand
    (h : Progress root vs ⟨tape, slots, hits, .enter t :: rest⟩ done)
    (ht : t ∉ slotTerms vs done)
    (hvar : g.isVariable t = false) :
    ∃ r, g.lowerStep ⟨tape, slots, hits, .enter t :: rest⟩ = .ok r ∧
      Progress root vs r done := by
  have hknown : ∀ u ∈ g.operands t, (slots.get u).isNone = false → u ∈ slotTerms vs done := by
    intro u _ hu
    rw [← h.located.isSome_iff]
    simpa [Option.isSome_iff_ne_none] using hu
  refine ⟨⟨tape, slots, hits + (g.operands t).countP fun u => (slots.get u).isSome,
    ((g.operands t).filter fun u => (slots.get u).isNone).map Task.enter ++ .leave t :: rest⟩,
    ?_, ?_⟩
  · rw [lowerStep, if_neg (h.located.isSome_iff.not.2 ht), if_neg (by simp [hvar])]
  · refine { h with pending := ?_, leaving := ?_, worksOff := ?_, order := ?_ }
    · exact pending_expand h.pending fun u hu => (List.mem_filter.1 hu).1
    · intro u hu
      rcases Task.leave_mem_expand.1 hu with rfl | hu
      · exact hvar
      · exact h.leaving u (List.mem_cons_of_mem _ hu)
    · apply WorksOff.expand h.worksOff
      intro u hu
      by_cases hslot : (slots.get u).isNone = true
      · exact .inr (List.mem_filter.2 ⟨hu, hslot⟩)
      · exact .inl (hknown u hu (Bool.eq_false_iff.2 hslot))
    · rw [← h.order]
      exact finish_expand ht hknown

/-- A term that has been given a slot in the meantime is not left again. -/
theorem Progress.leave_known
    (h : Progress root vs ⟨tape, slots, hits, .leave t :: rest⟩ done)
    (ht : t ∈ slotTerms vs done) :
    ∃ r, g.lowerStep ⟨tape, slots, hits, .leave t :: rest⟩ = .ok r ∧
      Progress root vs r done := by
  refine ⟨⟨tape, slots, hits, rest⟩, ?_, ?_⟩
  · rw [lowerStep, if_pos (h.located.isSome_iff.2 ht)]
  · refine { h with pending := ?_, leaving := ?_, worksOff := ?_, order := ?_ }
    · exact fun a ha => h.pending a (List.mem_cons_of_mem _ ha)
    · exact fun u hu => h.leaving u (List.mem_cons_of_mem _ hu)
    · obtain ⟨-, hrest⟩ : (∀ u ∈ g.operands t, u ∈ slotTerms vs done) ∧
          g.WorksOff (insert t {u | u ∈ slotTerms vs done}) rest := h.worksOff
      rwa [Set.insert_eq_of_mem (s := {u | u ∈ slotTerms vs done}) ht] at hrest
    · rw [← h.order]
      exact (finish_leave_of_mem ht).symm

theorem Progress.below_push
    (h : Progress root vs s done)
    (hbelow : t ∈ g.computedBelow root) :
    ∀ u ∈ done ++ [t], u ∈ g.computedBelow root := by
  intro u hu
  rcases List.mem_append.1 hu with hu | hu
  · exact h.below u hu
  · rwa [List.mem_singleton.1 hu]

/-- The tables have room for a term that has no slot, since it is another one below the root. -/
theorem Progress.room
    (h : Progress root vs s done)
    (ht : t ∉ slotTerms vs done)
    (hbelow : t ∈ g.computedBelow root) :
    done.length < (g.computedBelow root).card ∧
      s.tape.edges.size + (g.operands t).length ≤
        ∑ t ∈ g.computedBelow root, (g.operands t).length := by
  have hnodup : (done ++ [t]).Nodup := by
    rw [List.nodup_append]
    refine ⟨h.nodup, by simp, ?_⟩
    rintro u hu _ hv rfl
    rw [List.mem_singleton] at hv
    exact ht (List.mem_append_right _ (hv ▸ hu))
  have hcard := length_le_card hnodup (h.below_push hbelow)
  have harity := sum_arity_le hnodup (h.below_push hbelow)
  rw [List.length_append] at hcard
  rw [List.map_append, List.sum_append, ← h.edges] at harity
  exact ⟨hcard, by simpa using harity⟩

/-- The slots of located operands lie on the tape. -/
theorem Progress.lt_size
    {sources : List Nat} {ts : List g.Term}
    (h : Progress root vs s done)
    (hmap : sources.map (fun j => (slotTerms vs done)[j]?) = ts.map some) :
    ∀ j ∈ sources, j < s.tape.size := by
  intro j hj
  have hmem : (slotTerms vs done)[j]? ∈ ts.map some := hmap ▸ List.mem_map_of_mem hj
  obtain ⟨u, -, hu⟩ := List.mem_map.1 hmem
  rw [h.size]
  exact (List.getElem?_eq_some_iff.1 hu.symm).1

/-- The step that leaves a term without a slot pushes one that stands for it, over the slots of
its operands. -/
theorem Progress.emits
    (h : Progress root vs ⟨tape, slots, hits, .leave t :: rest⟩ done) :
    ∃ c op v sources,
      g.emit t slots tape = ({ tape with callbacks := c }.pushSlot op v sources).mapError .fault ∧
      Stands c (g.node t) op v ∧ tape.callbacks.Grown c ∧
      ((g.node t).callsFunction = false → c = tape.callbacks) ∧
      sources.map (fun j => (slotTerms vs done)[j]?) = (g.operands t).map some := by
  obtain ⟨hoperands, -⟩ : (∀ u ∈ g.operands t, u ∈ slotTerms vs done) ∧
      g.WorksOff (insert t {u | u ∈ slotTerms vs done}) rest := h.worksOff
  obtain ⟨sources, hsources, hmap⟩ := h.located.operandSlots_eq_ok hoperands
  have hdone : done.length ≤ indexLimit := by
    have hsize := h.size
    have hfits := h.fits
    rw [length_slotTerms] at hsize
    omega
  obtain ⟨c, op, v, hemit, hstands, hgrown, hsame⟩ := emit_eq (h.leaving t (by simp)) hsources
    (h.lt_size hmap) (h.unary.trans hdone) (h.binary.trans hdone) (h.nary.trans hdone)
  exact ⟨c, op, v, sources, hemit, hstands, hgrown, hsame, hmap⟩

/-- Leaving a term gives it the next slot, as long as there is an index for it. -/
theorem Progress.leave
    (h : Progress root vs ⟨tape, slots, hits, .leave t :: rest⟩ done)
    (ht : t ∉ slotTerms vs done)
    (hlt : tape.size < indexLimit) :
    ∃ r, g.lowerStep ⟨tape, slots, hits, .leave t :: rest⟩ = .ok r ∧
      Progress root vs r (done ++ [t]) := by
  have hbelow : t ∈ g.computedBelow root :=
    Graph.mem_computedBelow.2 ⟨h.pending (.leave t) (by simp), h.leaving t (by simp)⟩
  have hsize : tape.size = (slotTerms vs done).length := h.size
  obtain ⟨-, hrest⟩ : (∀ u ∈ g.operands t, u ∈ slotTerms vs done) ∧
      g.WorksOff (insert t {u | u ∈ slotTerms vs done}) rest := h.worksOff
  obtain ⟨c, op, v, sources, hemit, hstands, hgrown, hsame, hmap⟩ := h.emits
  have hlength : sources.length = (g.operands t).length := by
    simpa using congrArg List.length hmap
  have hstep : g.lowerStep ⟨tape, slots, hits, .leave t :: rest⟩ =
      .ok ⟨{ tape with callbacks := c }.withSlot op v sources,
        g.enterAt slots t (some tape.size), hits, rest⟩ := by
    rw [lowerStep, if_neg (h.located.isSome_iff.not.2 ht), hemit,
      Tape.pushSlot_of_lt (t := { tape with callbacks := c }) hlt]
    rfl
  refine ⟨_, hstep, ?_⟩
  constructor
  · exact h.sound.built (built_lowerStep hstep)
  · exact h.dimension
  · rw [Tape.size_withSlot, slotTerms_append, List.length_append, ← hsize]
    rfl
  · rw [Tape.size_withSlot]
    exact hlt
  · rw [Tape.size_edges_withSlot, List.map_append, List.sum_append, ← h.edges, hlength]
    simp
  · rw [List.length_append]
    exact hgrown.unary_size.trans (Nat.succ_le_succ h.unary)
  · rw [List.length_append]
    exact hgrown.binary_size.trans (Nat.succ_le_succ h.binary)
  · rw [List.length_append]
    exact hgrown.nary_size.trans (Nat.succ_le_succ h.nary)
  · exact h.registered.withSlot hgrown hstands.registered v sources
  · intro hnone
    have hdone := h.uncalled fun u hu => hnone u (List.mem_append_left _ hu)
    exact (hsame (hnone t (by simp))).trans hdone
  · rw [Tape.callbackCount_withSlot, List.countP_append, ← h.callbackCount, hstands.isCallback_eq,
      List.countP_singleton]
    rfl
  · intro hedges
    have harity := (h.room ht hbelow).2
    exact (h.layout hedges).push h.sound hsize (by rw [hlength]; omega) hgrown hstands hmap
  · rw [slotTerms_append, hsize]
    exact h.located.push ht
  · exact h.below_push hbelow
  · exact fun a ha => h.pending a (List.mem_cons_of_mem _ ha)
  · exact fun u hu => h.leaving u (List.mem_cons_of_mem _ hu)
  · refine hrest.mono ?_
    rw [slotTerms_append]
    rintro u (rfl | hu)
    · exact List.mem_append_right _ (by simp)
    · exact List.mem_append_left _ hu
  · rw [← h.order, slotTerms_append]
    exact (finish_leave_of_not_mem ht).symm

/-- Where there is no index for the slot of a term, the term has more nodes than there are
indices. -/
theorem Progress.full
    (h : Progress root vs ⟨tape, slots, hits, .leave t :: rest⟩ done)
    (ht : t ∉ slotTerms vs done)
    (hle : indexLimit ≤ tape.size) :
    ∃ e, g.lowerStep ⟨tape, slots, hits, .leave t :: rest⟩ = .error e ∧
      Refusal root vs e := by
  have hbelow : t ∈ g.computedBelow root :=
    Graph.mem_computedBelow.2 ⟨h.pending (.leave t) (by simp), h.leaving t (by simp)⟩
  obtain ⟨c, op, v, sources, hemit, -⟩ := h.emits
  refine ⟨.fault .tapeTooLong, ?_, .tooLong ?_⟩
  · rw [lowerStep, if_neg (h.located.isSome_iff.not.2 ht), hemit,
      Tape.pushSlot_of_le (t := { tape with callbacks := c }) hle]
    rfl
  · have hcard := (h.room ht hbelow).1
    have hsize : tape.size = (slotTerms vs done).length := h.size
    rw [length_slotTerms] at hsize
    omega

/-- A step keeps the invariant, or ends with an error that has its cause. -/
theorem Progress.step
    (hnodup : vs.Nodup)
    (h : Progress root vs s done)
    (hs : s.stack ≠ []) :
    (∃ r, g.lowerStep s = .ok r ∧ ∃ done', Progress root vs r done') ∨
      ∃ e, g.lowerStep s = .error e ∧ Refusal root vs e := by
  rcases s with ⟨tape, slots, hits, _ | ⟨t | t, rest⟩⟩
  · exact absurd rfl hs
  · by_cases ht : t ∈ slotTerms vs done
    · obtain ⟨r, hr, hP⟩ := h.hit ht
      exact .inl ⟨r, hr, done, hP⟩
    · cases hvar : g.isVariable t with
      | true => exact .inr (h.unbound ht hvar hnodup)
      | false =>
          obtain ⟨r, hr, hP⟩ := h.expand ht hvar
          exact .inl ⟨r, hr, done, hP⟩
  · by_cases ht : t ∈ slotTerms vs done
    · obtain ⟨r, hr, hP⟩ := h.leave_known ht
      exact .inl ⟨r, hr, done, hP⟩
    · by_cases hlt : tape.size < indexLimit
      · obtain ⟨r, hr, hP⟩ := h.leave ht hlt
        exact .inl ⟨r, hr, done ++ [t], hP⟩
      · exact .inr (h.full ht (Nat.le_of_not_lt hlt))

end Steps

/-- The state from which the pass starts. -/
theorem Progress.start
    {tape : Tape κ α} {slots : g.Table (Option Nat)}
    (h : Binds vs tape slots)
    (hsound : tape.Sound)
    (root : g.Term) :
    Progress root vs ⟨tape, slots, 0, [.enter root]⟩ [] := by
  have hlocated : Locates slots (slotTerms vs []) := by
    rw [slotTerms, List.append_nil]
    exact h.located
  constructor
  · exact hsound
  · exact h.dimension
  · simp [h.size]
  · exact h.size.trans_le h.fits
  · simp [h.edges]
  · simp [h.callbacks]
  · simp [h.callbacks]
  · simp [h.callbacks]
  · exact Tape.handlesRegistered_of_callbackCount h.callbackCount
  · exact fun _ => h.callbacks
  · exact h.callbackCount
  · exact fun _ => ⟨h.dimension, by simp [h.size], by simp⟩
  · exact hlocated
  · simp
  · intro a ha
    rw [List.mem_singleton.1 ha]
    exact .refl
  · simp
  · trivial
  · rfl

/-- The state at the end of a pass over distinct variables. -/
structure Finished (root : g.Term) (vs : List g.Variable) (s : LoweringState g)
    (done : List g.Term) : Prop where
  nodup : vs.Nodup
  progress : Progress root vs s done
  stack : s.stack = []

/-- Lowering a term gives every term below it a slot, or ends with an error that has its
cause. -/
theorem lower_outcome (root : g.Term) (vs : List g.Variable) :
    (∃ s, g.lower root vs = .ok s ∧ ∃ done, Finished root vs s done) ∨
      ∃ e, g.lower root vs = .error e ∧ Refusal root vs e := by
  rcases bindAll_outcome root vs with ⟨⟨tape, slots⟩, hbind, h⟩ | ⟨e, hbind, hrefused⟩
  · have hstart := Progress.start h (Tape.sound_empty.built (built_bindFrom hbind)) root
    rw [lower, hbind, ok_bind]
    have hstep : ∀ s, (∃ done, Progress root vs s done) → s.stack ≠ [] →
        (∃ r, g.lowerStep s = .ok r ∧ ∃ done, Progress root vs r done) ∨
          ∃ e, g.lowerStep s = .error e ∧ Refusal root vs e := by
      rintro s ⟨done, hP⟩ hs
      exact hP.step h.nodup hs
    rcases lowerFrom_outcome hstep _ ⟨[], hstart⟩ with ⟨s, hs, ⟨done, hP⟩, hstack⟩ | hrefused
    · exact .inl ⟨s, hs, done, h.nodup, hP, hstack⟩
    · exact .inr hrefused
  · exact .inr ⟨e, by rw [lower, hbind, error_bind], hrefused⟩

/-- The terms that have slots after the variables, in the order of a walk. -/
theorem Finished.done_eq
    (h : Finished root vs s done) :
    done = (g.walk root).filter (· ∉ vs.map fun v => v.1) := by
  have horder := h.progress.order
  rw [h.stack, finish_nil, visit_slotTerms] at horder
  exact List.append_cancel_left horder

/-- What the root reaches has a slot. -/
theorem Finished.mem_slotTerms
    (h : Finished root vs s done)
    {t : g.Term}
    (ht : g.Reaches root t) :
    t ∈ slotTerms vs done := by
  rw [slotTerms, List.mem_append, h.done_eq, List.mem_filter, decide_eq_true_eq]
  by_cases hv : t ∈ vs.map fun v => v.1
  · exact .inl hv
  · exact .inr ⟨mem_walk.2 ht, hv⟩

end Run

end Graph
end ReverseMode
