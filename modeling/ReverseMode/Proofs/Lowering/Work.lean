import ReverseMode.Proofs.Lowering.Hits
import ReverseMode.Proofs.Term.Work

/-!
# The work of lowering a term

**Input.**  Any term with any list of variables, whether or not it has a tape over them.

**Argument.**  The terms that are done are those with slots.  The states that the pass comes through
are in balance and lay out the tape (`Underway.progress`): so there are tasks for earlier terms only
above the `leave` of a term, and the operands of a term have slots when it is left.

**Results.**
* `lowerWithin_taskBound`: lowering ends within the bound of a walk, whether or not it fails.
* `Underway.isSome_of_mem_lookups`: a term has its slot whenever that is looked up.
* `passes_within_taskBound`: both passes over a term, and the look-ups on the way.
-/

namespace ReverseMode
namespace Graph

variable {κ α : Type} [Exponent κ] [Scalar κ α] {g : Graph κ α}

section Lowering

/-- `lower`, where the pass takes at most `budget` tasks, if it ends with that. -/
def lowerWithin (g : Graph κ α) (budget : Nat) (root : g.Term) (vs : List g.Variable) :
    Option (Except (Error κ) (LoweringState g)) :=
  match g.bindAll vs with
  | .error e => some (.error e)
  | .ok (tape, slots) =>
      endWithin (fun s => s.stack.isEmpty) g.lowerStep budget ⟨tape, slots, 0, [.enter root]⟩

/-- The states of the pass between two tasks. -/
inductive Underway (root : g.Term) (vs : List g.Variable) : LoweringState g → Prop where
  | start {tape : Tape κ α} {slots : g.Table (Option Nat)} :
      g.bindAll vs = .ok (tape, slots) → Underway root vs ⟨tape, slots, 0, [.enter root]⟩
  | step {s r : LoweringState g} :
      Underway root vs s → s.stack ≠ [] → g.lowerStep s = .ok r → Underway root vs r

/-- The terms whose slots are looked up next: the operands of a term that is left and has no slot,
and the root when no task is left. -/
def lookups (root : g.Term) (s : LoweringState g) : List g.Term :=
  match s.stack with
  | [] => [root]
  | .enter _ :: _ => []
  | .leave t :: _ => if (s.slots.get t).isSome then [] else g.operands t

/-- The terms that have slots. -/
def slottedTerms (slots : g.Table (Option Nat)) : Finset g.Term :=
  Finset.univ.filter fun t => (slots.get t).isSome = true

variable {root t : g.Term} {vs : List g.Variable} {s r : LoweringState g}

omit [Scalar κ α] in
theorem mem_slottedTerms
    {slots : g.Table (Option Nat)} :
    t ∈ slottedTerms slots ↔ (slots.get t).isSome = true := by
  simp [slottedTerms]

omit [Scalar κ α] in
theorem slottedTerms_enterAt (slots : g.Table (Option Nat)) (t : g.Term) (i : Nat) :
    slottedTerms (g.enterAt slots t (some i)) = insert t (slottedTerms slots) := by
  ext u
  rw [mem_slottedTerms, get_enterAt, Finset.mem_insert, mem_slottedTerms]
  split
  · rename_i htu
    simp [htu]
  · rename_i hne
    simp [Ne.symm hne]

/-- What holds between two tasks. -/
theorem Underway.progress
    (h : Underway root vs s) :
    vs.Nodup ∧ Balanced vs.length s ∧ ∃ done, Progress root vs s done := by
  induction h with
  | start hbind =>
      rcases bindAll_outcome root vs with ⟨r, hr, hbinds⟩ | ⟨e, he, -⟩
      · obtain rfl := Except.ok.inj (hbind.symm.trans hr)
        exact ⟨hbinds.nodup, .start hbinds root, [],
          .start hbinds (Tape.sound_empty.built (built_bindFrom hbind)) root⟩
      · rw [hbind] at he
        cases he
  | step _ hs hr ih =>
      obtain ⟨hnodup, hbalanced, done, hprogress⟩ := ih
      refine ⟨hnodup, hbalanced.step hr, ?_⟩
      rcases hprogress.step hnodup hs with ⟨r', hr', hP⟩ | ⟨e, he, -⟩
      · rwa [Except.ok.inj (hr.symm.trans hr')]
      · rw [hr] at he
        cases he

/-- A term has its slot whenever it is looked up. -/
theorem Underway.isSome_of_mem_lookups
    (h : Underway root vs s)
    (ht : t ∈ g.lookups root s) :
    (s.slots.get t).isSome = true := by
  obtain ⟨hnodup, -, done, hP⟩ := h.progress
  rw [hP.located.isSome_iff]
  rcases s with ⟨tape, slots, hits, _ | ⟨u | u, rest⟩⟩
  · obtain rfl := List.mem_singleton.1 ht
    exact Finished.mem_slotTerms ⟨hnodup, hP, rfl⟩ .refl
  · cases ht
  · rw [lookups] at ht
    dsimp only at ht
    split at ht
    · cases ht
    · exact hP.worksOff.1 t ht

/-- Every task that lowering takes without failing is work done. -/
theorem Underway.work_lt
    (h : Underway root vs s)
    (hs : s.stack ≠ [])
    (hr : g.lowerStep s = .ok r) :
    g.work root (slottedTerms r.slots) r.stack < g.work root (slottedTerms s.slots) s.stack := by
  obtain ⟨-, hbalanced, done, hP⟩ := h.progress
  rcases s with ⟨tape, slots, hits, _ | ⟨t | t, rest⟩⟩
  · exact absurd rfl hs
  · rw [lowerStep] at hr
    split at hr
    · cases hr
      exact work_enter_lt root t _ rest
    · rename_i hslot
      split at hr
      · cases hr
      · cases hr
        exact work_expand_lt (hP.pending (.enter t) (by simp)) (mem_slottedTerms.not.2 hslot)
          hbalanced.above (List.length_filter_le _ _)
  · rw [lowerStep] at hr
    split at hr
    · rename_i hslot
      cases hr
      exact work_leave_lt subset_rfl (mem_slottedTerms.2 hslot)
    · split at hr
      · cases hr
      · cases hr
        rw [slottedTerms_enterAt]
        exact work_leave_lt (Finset.subset_insert _ _) (Finset.mem_insert_self _ _)

/-- Lowering ends within the bound, whether or not it fails. -/
theorem lowerWithin_taskBound (root : g.Term) (vs : List g.Variable) :
    g.lowerWithin (g.taskBound root) root vs = some (g.lower root vs) := by
  rw [lowerWithin, lower]
  cases hbind : g.bindAll vs with
  | error e => rfl
  | ok bound =>
      obtain ⟨tape, slots⟩ := bound
      refine endWithin_eq_some (P := Underway root vs)
        g.lowerFrom (fun s => g.work root (slottedTerms s.slots) s.stack)
        ?_ ?_ ?_ (.start hbind) (work_start_le root _)
      · intro s
        by_cases hs : s.stack = []
        · rw [lowerFrom_nil hs, if_pos (List.isEmpty_iff.2 hs)]
        · rw [if_neg (by simpa using hs)]
          cases hr : g.lowerStep s with
          | error e => exact lowerFrom_error hs hr
          | ok r => exact lowerFrom_step hs hr
      · exact fun s hend => work_pos (List.isEmpty_eq_false_iff.1 hend)
      · intro s r hs hend hr
        have hne := List.isEmpty_eq_false_iff.1 hend
        exact ⟨hs.step hne hr, hs.work_lt hne hr⟩

end Lowering

section Results

/-- A term has its slot whenever it is looked up, so lowering does not end for want of one. -/
theorem ofTerm_ne_unslottedOperand (root : g.Term) (vs : List g.Variable) :
    Tape.ofTerm g root vs ≠ .error (.fault .unslottedOperand) := by
  intro h
  rcases ofTerm_outcome root vs with ⟨l, hl, -⟩ | ⟨e, he, hrefused⟩
  · rw [h] at hl
    cases hl
  · rw [h] at he
    cases he
    cases hrefused

/-- Walking a term, and lowering it to a tape or to an error, take at most one task more than the
root reaches terms and these have operands.  Every look-up on the way is for a term that has a
slot. -/
theorem passes_within_taskBound (root : g.Term) (vs : List g.Variable) :
    g.walkWithin (g.taskBound root) root = some (.ok (g.walkFrom (g.walkStart root))) ∧
      g.lowerWithin (g.taskBound root) root vs = some (g.lower root vs) ∧
      (∀ s, Underway root vs s → ∀ t ∈ g.lookups root s, (s.slots.get t).isSome = true) ∧
      Tape.ofTerm g root vs ≠ .error (.fault .unslottedOperand) :=
  ⟨walkWithin_taskBound root, lowerWithin_taskBound root vs,
    fun _ hs _ ht => hs.isSome_of_mem_lookups ht, ofTerm_ne_unslottedOperand root vs⟩

/-- A walk over `x * x + x * x` takes all eight tasks that three terms and four operands allow.
When lowering leaves the product, it looks up both operands. -/
theorem passes_within_taskBound_doubled :
    doubled.taskBound doubled.root = 8 ∧
      doubled.walkWithin 7 doubled.root = none ∧
      doubled.walkWithin 8 doubled.root =
        some (.ok (doubled.walkFrom (doubled.walkStart doubled.root))) ∧
      doubled.lowerWithin 8 doubled.root [doubled.x] =
        some (doubled.lower doubled.root [doubled.x]) ∧
      ∃ s, Underway doubled.root [doubled.x] s ∧
        s.stack = [.leave ⟨1, by decide⟩, .enter ⟨1, by decide⟩, .leave doubled.root] ∧
        doubled.lookups doubled.root s = [doubled.x.1, doubled.x.1] ∧
        (s.slots.get doubled.x.1).isSome = true := by
  obtain ⟨hwalk, hlower, hslotted, -⟩ := passes_within_taskBound doubled.root [doubled.x]
  have hbound : doubled.taskBound doubled.root = 8 := by
    rw [taskBound_eq]
    cbv
  have hmet : doubled.walkWithin 7 doubled.root = none := by cbv
  rw [hbound] at hwalk hlower
  have hs : Underway doubled.root [doubled.x] _ :=
    .step (.step (.start rfl) (by simp) rfl) (by simp) rfl
  exact ⟨hbound, hmet, hwalk, hlower, _, hs, rfl, rfl, hslotted _ hs _ (by decide)⟩

end Results
end Graph
end ReverseMode
