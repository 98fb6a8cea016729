import Mathlib
import ReverseMode.Proofs.Term.Order

/-!
# The work of a depth-first pass

**Input.**  Any term.

**Cost.**  One unit for each task that is taken from the stack, also for one that fails.  A loop
is run on a budget (`endWithin`), and has no result where it would take more tasks than that.

**Argument.**  `work` counts the tasks on the stack, and for each term below the root that is still
to be expanded its `leave` and its operands.  What a term puts on the stack when it is expanded has
been counted before, so every task that is taken lowers the work by one at least.  No term is
expanded twice: above its own `leave` it is not entered, and after that it is done.  The number of
paths through the graph plays no part, unlike in `load`.

**Results.**
* `endWithin_eq_some`: a budget of the work suffices, whatever else a pass remembers.
* `work_enter_lt`, `work_expand_lt`, `work_leave_lt`: each kind of task lowers the work.
* `work_start_le`: a pass starts with work for as many tasks as the root reaches terms and these
  have operands, and one more.
* `walkWithin_taskBound`: a walk ends within this bound.
-/

namespace ReverseMode

section Budgets

variable {σ ε : Type}

/-- Where a loop ends that takes at most `budget` steps, if it ends with that.  The loop is over
where `ended` holds, or after a step that fails. -/
def endWithin (ended : σ → Bool) (step : σ → Except ε σ) : Nat → σ → Option (Except ε σ)
  | 0, s => if ended s then some (.ok s) else none
  | budget + 1, s =>
      if ended s then some (.ok s)
      else
        match step s with
        | .error e => some (.error e)
        | .ok r => endWithin ended step budget r

/-- A loop ends within its work, if there is work wherever it goes on and every step lowers it. -/
theorem endWithin_eq_some
    {ended : σ → Bool} {step : σ → Except ε σ} {P : σ → Prop}
    (loop : σ → Except ε σ) (work : σ → Nat)
    (hloop : ∀ s, loop s = if ended s then .ok s else step s >>= loop)
    (hpos : ∀ s, ended s = false → 0 < work s)
    (hstep : ∀ s r, P s → ended s = false → step s = .ok r → P r ∧ work r < work s)
    {budget : Nat} {s : σ}
    (hs : P s)
    (h : work s ≤ budget) :
    endWithin ended step budget s = some (loop s) := by
  induction budget generalizing s with
  | zero =>
      cases hend : ended s with
      | true => rw [endWithin, hloop, if_pos hend, if_pos hend]
      | false =>
          have := hpos s hend
          omega
  | succ budget ih =>
      rw [endWithin, hloop]
      cases hend : ended s with
      | true => rfl
      | false =>
          cases hr : step s with
          | error e => rfl
          | ok r =>
              obtain ⟨hP, hlt⟩ := hstep s r hs hend hr
              exact ih hP (by omega)

end Budgets

namespace Graph

variable {κ α : Type} [Exponent κ] {g : Graph κ α}

section Work

open Classical in
/-- The terms that a term reaches. -/
noncomputable def reached (g : Graph κ α) (root : g.Term) : Finset g.Term :=
  Finset.univ.filter (g.Reaches root)

/-- One more than the terms that the root reaches and their operands, these counted at each place
where they stand. -/
noncomputable def taskBound (g : Graph κ α) (root : g.Term) : Nat :=
  1 + (g.reached root).card + ∑ t ∈ g.reached root, (g.operands t).length

/-- The terms below the root that are neither done nor about to be left. -/
noncomputable def unexpanded (g : Graph κ α) (root : g.Term) (done : Finset g.Term)
    (stack : List (Task g.Term)) : Finset g.Term :=
  (g.reached root).filter fun t => t ∉ done ∧ .leave t ∉ stack

/-- The tasks on a stack, and for each term that is still to be expanded its `leave` and its
operands. -/
noncomputable def work (g : Graph κ α) (root : g.Term) (done : Finset g.Term)
    (stack : List (Task g.Term)) : Nat :=
  stack.length + ∑ t ∈ g.unexpanded root done stack, (1 + (g.operands t).length)

variable {root t : g.Term} {done done' : Finset g.Term} {ts : List g.Term}
  {stack rest : List (Task g.Term)}

theorem mem_reached :
    t ∈ g.reached root ↔ g.Reaches root t := by
  simp [reached]

theorem mem_unexpanded :
    t ∈ g.unexpanded root done stack ↔
      g.Reaches root t ∧ t ∉ done ∧ .leave t ∉ stack := by
  rw [unexpanded, Finset.mem_filter, mem_reached]

/-- The bound, read off a walk. -/
theorem taskBound_eq (root : g.Term) :
    g.taskBound root =
      1 + g.nodeCount root + ((g.walk root).map fun t => (g.operands t).length).sum := by
  have hwalk : g.reached root = (g.walk root).toFinset := by
    ext t
    rw [mem_reached, List.mem_toFinset, mem_walk]
  rw [taskBound, hwalk, List.toFinset_card_of_nodup (nodup_walk root),
    List.sum_toFinset _ (nodup_walk root), nodeCount]

theorem work_pos
    (h : stack ≠ []) :
    0 < g.work root done stack :=
  Nat.add_pos_left (List.length_pos_iff.2 h) _

/-- A pass starts with work for the bound at most. -/
theorem work_start_le (root : g.Term) (done : Finset g.Term) :
    g.work root done [.enter root] ≤ g.taskBound root := by
  have hle : ∑ t ∈ g.unexpanded root done [.enter root], (1 + (g.operands t).length) ≤
      ∑ t ∈ g.reached root, (1 + (g.operands t).length) :=
    Finset.sum_le_sum_of_subset (Finset.filter_subset _ _)
  have hsum : ∑ t ∈ g.reached root, (1 + (g.operands t).length) =
      (g.reached root).card + ∑ t ∈ g.reached root, (g.operands t).length := by
    rw [Finset.sum_add_distrib, ← Finset.card_eq_sum_ones]
  rw [work, taskBound, List.length_singleton]
  omega

/-- A task that is taken away is work done, if what was done or about to be left still is. -/
theorem work_tail_lt
    {a : Task g.Term}
    (h : ∀ u, u ∈ done ∨ .leave u ∈ a :: rest → u ∈ done' ∨ .leave u ∈ rest) :
    g.work root done' rest < g.work root done (a :: rest) := by
  have hsub : g.unexpanded root done' rest ⊆ g.unexpanded root done (a :: rest) := by
    intro u hu
    obtain ⟨hreach, hnot⟩ := mem_unexpanded.1 hu
    rw [← not_or] at hnot
    exact mem_unexpanded.2 ⟨hreach, not_or.1 (mt (h u) hnot)⟩
  have hle := Finset.sum_le_sum_of_subset (f := fun u => 1 + (g.operands u).length) hsub
  rw [work, work, List.length_cons]
  omega

/-- Entering a term that is not expanded is work done. -/
theorem work_enter_lt (root t : g.Term) (done : Finset g.Term) (rest : List (Task g.Term)) :
    g.work root done rest < g.work root done (.enter t :: rest) := by
  apply work_tail_lt
  exact fun u hu => hu.imp_right Task.leave_mem_enter.1

/-- Leaving a term is work done, if the term is done then. -/
theorem work_leave_lt
    (h : done ⊆ done')
    (ht : t ∈ done') :
    g.work root done' rest < g.work root done (.leave t :: rest) := by
  apply work_tail_lt
  rintro u (hu | hu)
  · exact .inl (h hu)
  · rcases List.mem_cons.1 hu with hu | hu
    · cases hu
      exact .inl ht
    · exact .inr hu

/-- Expanding a term is work done, since the tasks that it is expanded into have been counted before.
It has not been expanded already, since it is not entered above its own `leave`. -/
theorem work_expand_lt
    (hreach : g.Reaches root t)
    (ht : t ∉ done)
    (habove : (Task.enter t :: rest).Pairwise fun a b => ∀ p, b = .leave p → a.term < p)
    (hts : ts.length ≤ (g.operands t).length) :
    g.work root done (ts.map Task.enter ++ .leave t :: rest) <
      g.work root done (.enter t :: rest) := by
  have hmem : t ∈ g.unexpanded root done (.enter t :: rest) := by
    refine mem_unexpanded.2 ⟨hreach, ht, fun hleave => ?_⟩
    have hrest := Task.leave_mem_enter.1 hleave
    exact absurd ((List.pairwise_cons.1 habove).1 _ hrest t rfl) (lt_irrefl t)
  have herase : g.unexpanded root done (ts.map Task.enter ++ .leave t :: rest) =
      (g.unexpanded root done (.enter t :: rest)).erase t := by
    ext u
    rw [Finset.mem_erase, mem_unexpanded, mem_unexpanded, Task.leave_mem_expand,
      Task.leave_mem_enter]
    tauto
  have hsum := Finset.add_sum_erase _ (fun u => 1 + (g.operands u).length) hmem
  rw [work, work, herase]
  simp only [List.length_append, List.length_map, List.length_cons] at hsum ⊢
  omega

end Work

section Walk

variable {root : g.Term}

/-- A walk that takes at most `budget` tasks, if it ends with that.  Its steps do not fail. -/
def walkWithin (g : Graph κ α) (budget : Nat) (root : g.Term) :
    Option (Except Empty (WalkState g)) :=
  endWithin (fun s => s.stack.isEmpty) (fun s => .ok (g.walkStep s)) budget (g.walkStart root)

theorem pending_walkStep
    {s : WalkState g}
    (hpending : ∀ a ∈ s.stack, g.Reaches root a.term) :
    ∀ a ∈ (g.walkStep s).stack, g.Reaches root a.term := by
  rcases s with ⟨seen, visited, _ | ⟨t | t, rest⟩⟩
  · exact hpending
  · rw [walkStep]
    split
    · exact fun a ha => hpending a (List.mem_cons_of_mem _ ha)
    · exact pending_expand hpending fun u hu => (List.mem_filter.1 hu).1
  · exact fun a ha => hpending a (List.mem_cons_of_mem _ ha)

/-- Every task that a walk takes is work done. -/
theorem Walking.work_lt
    {s : WalkState g}
    (h : Walking root s)
    (hpending : ∀ a ∈ s.stack, g.Reaches root a.term)
    (hs : s.stack ≠ []) :
    g.work root (g.walkStep s).visited.toList.toFinset (g.walkStep s).stack <
      g.work root s.visited.toList.toFinset s.stack := by
  rcases s with ⟨seen, visited, _ | ⟨t | t, rest⟩⟩
  · exact absurd rfl hs
  · rw [walkStep]
    split
    · exact work_enter_lt root t _ rest
    · rename_i ht
      have hvisited : t ∉ visited.toList.toFinset := by
        simpa using (h.seen_iff (le_refl t)).not.1 ht
      exact work_expand_lt (hpending (.enter t) (by simp)) hvisited h.above
        (List.length_filter_le _ _)
  · rw [walkStep, Array.toList_push, List.toFinset_append]
    exact work_leave_lt Finset.subset_union_left (by simp)

/-- A walk ends within the bound. -/
theorem walkWithin_taskBound (root : g.Term) :
    g.walkWithin (g.taskBound root) root = some (.ok (g.walkFrom (g.walkStart root))) := by
  refine endWithin_eq_some (P := fun s => Walking root s ∧ ∀ a ∈ s.stack, g.Reaches root a.term)
    (fun s => .ok (g.walkFrom s)) (fun s => g.work root s.visited.toList.toFinset s.stack)
    ?_ ?_ ?_ ⟨.start root, ?_⟩ (work_start_le root _)
  · intro s
    rw [walkFrom]
    simp only [List.isEmpty_iff]
    split <;> rfl
  · exact fun s hend => work_pos (List.isEmpty_eq_false_iff.1 hend)
  · rintro s r ⟨h, hpending⟩ hend hr
    obtain rfl : g.walkStep s = r := Except.ok.inj hr
    have hs := List.isEmpty_eq_false_iff.1 hend
    exact ⟨⟨h.step hs, pending_walkStep hpending⟩, h.work_lt hpending hs⟩
  · intro a ha
    obtain rfl := List.mem_singleton.1 ha
    exact .refl

end Walk

end Graph
end ReverseMode
