import Mathlib.Data.List.Nodup
import Mathlib.Logic.Relation
import Mathlib.Order.Fin.Basic
import ReverseMode.Term.Walk

/-!
# The order of a depth-first pass

**Input.**  A term, and a list of terms that are known beforehand.

**Argument.**  `visit` is the recursion that a pass over a graph unrolls on its stack: a term
that is not known is appended after its operands have been visited.  `finish` says what the
tasks on a stack still append.  Expanding a task does not change that (`finish_expand`), whatever
marks decide which operands are entered.

**Results.**
* `mem_visit`, `nodup_visit`: a visit appends what the term reaches, each term once.
* `visit_seeded`: terms without operands that are known beforehand drop out of the order, and
  nothing else changes.
* `walk_eq_visit`: the walk over a term visits its terms in this order.
* `vars_eq_filterMap`: the variables of a term come in this order, each once.
-/

namespace ReverseMode

/-- The term that a task is about. -/
def Task.term {τ : Type} : Task τ → τ
  | enter t => t
  | leave t => t

section Leaving

variable {τ : Type} {p t : τ} {rest : List (Task τ)}

/-- Entering a term leaves none. -/
theorem Task.leave_mem_enter :
    .leave p ∈ Task.enter t :: rest ↔ .leave p ∈ rest := by
  simp

/-- A term that is expanded is to be left after that. -/
theorem Task.leave_mem_expand
    {ts : List τ} :
    .leave p ∈ ts.map Task.enter ++ .leave t :: rest ↔ p = t ∨ .leave p ∈ rest := by
  simp

end Leaving

namespace Graph

variable {κ α : Type} [Exponent κ] {g : Graph κ α}

section Reach

/-- A term reaches itself, its operands, and what these reach. -/
def Reaches (g : Graph κ α) : g.Term → g.Term → Prop :=
  Relation.ReflTransGen fun t u => u ∈ g.operands t

theorem operands_of_isVariable
    {t : g.Term}
    (h : g.isVariable t = true) :
    g.operands t = [] := by
  rw [isVariable] at h
  rw [operands]
  generalize g.node t = n at h
  cases n with
  | var name => rfl
  | _ => cases h

theorem asVariable?_eq_some_iff
    {t : g.Term} {v : g.Variable} :
    g.asVariable? t = some v ↔ v.1 = t := by
  rw [asVariable?]
  split
  · rw [Option.some.injEq, Subtype.ext_iff, eq_comm]
  · rename_i ht
    constructor
    · intro h
      cases h
    · rintro rfl
      exact absurd v.2 ht

/-- What a term has as soon as its operands have it, every term has. -/
theorem operands_induction
    {P : g.Term → Prop}
    (h : ∀ t, (∀ u ∈ g.operands t, P u) → P t)
    (t : g.Term) :
    P t :=
  h t fun u _ => operands_induction h u
termination_by t.val
decreasing_by exact g.lt_of_mem_operands ‹_›

/-- No later term is reached. -/
theorem Reaches.le
    {t u : g.Term}
    (h : g.Reaches t u) :
    u.val ≤ t.val := by
  induction h with
  | refl => exact Nat.le_refl _
  | tail _ hu ih =>
      have := g.lt_of_mem_operands hu
      omega

end Reach

section Visit

/-- The known terms and after them those that a visit of `t` adds: the terms that `t` reaches,
operands before their users, each where it is met first. -/
def visit (g : Graph κ α) (known : List g.Term) (t : g.Term) : List g.Term :=
  if t ∈ known then known
  else (g.operands t).attach.foldl (fun known u => g.visit known u.1) known ++ [t]
termination_by t.val
decreasing_by exact g.lt_of_mem_operands u.2

/-- The known terms and those that visits of `ts` add, one visit after another. -/
def visitAll (g : Graph κ α) (known ts : List g.Term) : List g.Term :=
  ts.foldl g.visit known

variable {known known' ts : List g.Term} {root t u : g.Term}

theorem visit_of_mem
    (h : t ∈ known) :
    g.visit known t = known := by
  rw [visit, if_pos h]

theorem visit_of_not_mem
    (h : t ∉ known) :
    g.visit known t = g.visitAll known (g.operands t) ++ [t] := by
  rw [visit, if_neg h, visitAll, List.foldl_attach]

@[simp] theorem visitAll_nil (known : List g.Term) : g.visitAll known [] = known := by
  rfl

@[simp] theorem visitAll_cons (known : List g.Term) (t : g.Term) (ts : List g.Term) :
    g.visitAll known (t :: ts) = g.visitAll (g.visit known t) ts := by
  rfl

theorem mem_visit_self (known : List g.Term) (t : g.Term) : t ∈ g.visit known t := by
  by_cases h : t ∈ known
  · rwa [visit_of_mem h]
  · rw [visit_of_not_mem h]
    exact List.mem_append_right _ (List.mem_singleton.2 rfl)

/-- What each visit keeps, a sequence of visits keeps. -/
theorem visitAll_preserves
    {P : List g.Term → Prop}
    (hstep : ∀ t ∈ ts, ∀ known, P known → P (g.visit known t))
    (h : P known) :
    P (g.visitAll known ts) := by
  induction ts generalizing known with
  | nil => exact h
  | cons t ts ih =>
      rw [visitAll_cons]
      apply ih
      · exact fun u hu => hstep u (List.mem_cons_of_mem t hu)
      · exact hstep t (by simp) known h

/-- A visit appends terms that the visited one reaches. -/
theorem exists_visit_eq_append (known : List g.Term) (t : g.Term) :
    ∃ more, g.visit known t = known ++ more ∧ ∀ u ∈ more, g.Reaches t u := by
  induction t using operands_induction generalizing known with
  | h t ih =>
      by_cases ht : t ∈ known
      · exact ⟨[], by rw [visit_of_mem ht, List.append_nil], by simp⟩
      · obtain ⟨more, hmore, hreach⟩ : ∃ more, g.visitAll known (g.operands t) = known ++ more ∧
            ∀ u ∈ more, g.Reaches t u := by
          apply visitAll_preserves (P := fun K => ∃ more, K = known ++ more ∧
            ∀ u ∈ more, g.Reaches t u)
          · rintro u hu _ ⟨more, rfl, hmore⟩
            obtain ⟨further, hfurther, hreach⟩ := ih u hu (known ++ more)
            refine ⟨more ++ further, by rw [hfurther, List.append_assoc], ?_⟩
            intro w hw
            rcases List.mem_append.1 hw with hw | hw
            · exact hmore w hw
            · exact .head hu (hreach w hw)
          · exact ⟨[], by rw [List.append_nil], by simp⟩
        refine ⟨more ++ [t], by rw [visit_of_not_mem ht, hmore, List.append_assoc], ?_⟩
        intro u hu
        rcases List.mem_append.1 hu with hu | hu
        · exact hreach u hu
        · rw [List.mem_singleton.1 hu]
          exact .refl

theorem mem_visit_of_mem
    (h : u ∈ known)
    (t : g.Term) :
    u ∈ g.visit known t := by
  obtain ⟨more, hmore, -⟩ := exists_visit_eq_append known t
  rw [hmore]
  exact List.mem_append_left _ h

theorem mem_visitAll_of_mem
    (h : u ∈ known)
    (ts : List g.Term) :
    u ∈ g.visitAll known ts :=
  visitAll_preserves (P := fun K => u ∈ K) (fun t _ _ hK => mem_visit_of_mem hK t) h

theorem mem_visitAll
    (h : t ∈ ts)
    (known : List g.Term) :
    t ∈ g.visitAll known ts := by
  induction ts generalizing known with
  | nil => cases h
  | cons u ts ih =>
      rw [visitAll_cons]
      rcases List.mem_cons.1 h with rfl | h
      · exact mem_visitAll_of_mem (mem_visit_self known t) ts
      · exact ih h (g.visit known u)

/-- Visiting what a term reads does not meet the term. -/
theorem not_mem_visitAll_operands
    (h : t ∉ known) :
    t ∉ g.visitAll known (g.operands t) := by
  apply visitAll_preserves (P := fun K => t ∉ K) _ h
  intro u hu K hK ht
  obtain ⟨more, hmore, hreach⟩ := exists_visit_eq_append K u
  rw [hmore] at ht
  rcases List.mem_append.1 ht with ht | ht
  · exact hK ht
  · have hle := (hreach t ht).le
    have hlt := g.lt_of_mem_operands hu
    omega

/-- A visit appends one term after another, each of them unknown till then and after its
operands; what these appends keep, the visit keeps. -/
theorem visit_induction
    {P : List g.Term → Prop}
    (happend : ∀ known t, P known → g.Reaches root t → t ∉ known →
      (∀ u ∈ g.operands t, u ∈ known) → P (known ++ [t]))
    (h : P known) :
    P (g.visit known root) := by
  induction root using operands_induction generalizing known with
  | h t ih =>
      by_cases ht : t ∈ known
      · rwa [visit_of_mem ht]
      · rw [visit_of_not_mem ht]
        refine happend _ t ?_ .refl (not_mem_visitAll_operands ht) fun u hu => mem_visitAll hu known
        apply visitAll_preserves _ h
        intro u hu K hK
        exact ih u hu (fun K w hP hw => happend K w hP (.head hu hw)) hK

theorem nodup_visit
    (h : known.Nodup)
    (t : g.Term) :
    (g.visit known t).Nodup := by
  apply visit_induction _ h
  intro K u hK _ hu _
  rw [List.nodup_append]
  refine ⟨hK, by simp, ?_⟩
  rintro w hw _ hv rfl
  exact hu (List.mem_singleton.1 hv ▸ hw)

/-- Where the known terms come with their operands, a visit makes known what its term reaches
and nothing else. -/
theorem mem_visit
    (hclosed : ∀ t ∈ known, ∀ u ∈ g.operands t, u ∈ known) :
    u ∈ g.visit known t ↔ u ∈ known ∨ g.Reaches t u := by
  constructor
  · intro hu
    obtain ⟨more, hmore, hreach⟩ := exists_visit_eq_append known t
    rw [hmore] at hu
    exact (List.mem_append.1 hu).imp_right (hreach u)
  · rintro (hu | hu)
    · exact mem_visit_of_mem hu t
    · have hclosed' : ∀ w ∈ g.visit known t, ∀ u ∈ g.operands w, u ∈ g.visit known t := by
        apply visit_induction (P := fun K => ∀ w ∈ K, ∀ u ∈ g.operands w, u ∈ K) _ hclosed
        intro K w hK _ _ hw v hv x hx
        apply List.mem_append_left
        rcases List.mem_append.1 hv with hv | hv
        · exact hK v hv x hx
        · exact hw x (List.mem_singleton.1 hv ▸ hx)
      induction hu with
      | refl => exact mem_visit_self known t
      | tail _ hu ih => exact hclosed' _ ih _ hu

/-- Terms without operands that are known beforehand drop out of the order of a visit, and the
other terms keep their order. -/
theorem visit_seeded
    {leaves : List g.Term}
    (hleaves : ∀ t ∈ leaves, g.operands t = [])
    (known : List g.Term) (t : g.Term) :
    g.visit (leaves ++ known.filter (· ∉ leaves)) t =
      leaves ++ (g.visit known t).filter (· ∉ leaves) := by
  induction t using operands_induction generalizing known with
  | h t ih =>
      have hall : ∀ (ts : List g.Term) (known : List g.Term), (∀ u ∈ ts, u ∈ g.operands t) →
          g.visitAll (leaves ++ known.filter (· ∉ leaves)) ts =
            leaves ++ (g.visitAll known ts).filter (· ∉ leaves) := by
        intro ts
        induction ts with
        | nil => exact fun _ _ => rfl
        | cons u ts ihs =>
            intro known hts
            rw [visitAll_cons, visitAll_cons, ih u (hts u (by simp)) known]
            exact ihs _ fun w hw => hts w (List.mem_cons_of_mem u hw)
      by_cases hleaf : t ∈ leaves
      · rw [visit_of_mem (List.mem_append_left _ hleaf)]
        by_cases ht : t ∈ known
        · rw [visit_of_mem ht]
        · simp [visit_of_not_mem ht, hleaves t hleaf, hleaf]
      · by_cases ht : t ∈ known
        · rw [visit_of_mem ht, visit_of_mem (by simp [ht, hleaf])]
        · rw [visit_of_not_mem ht, visit_of_not_mem (by simp [ht, hleaf]),
            hall _ known fun u hu => hu]
          simp [hleaf]

end Visit

section Stack

variable {known ts : List g.Term} {t : g.Term} {stack rest : List (Task g.Term)}

/-- The known terms and after them those that the tasks on a stack still append. -/
def finish (g : Graph κ α) : List g.Term → List (Task g.Term) → List g.Term
  | known, [] => known
  | known, .enter t :: rest => g.finish (g.visit known t) rest
  | known, .leave t :: rest => g.finish (if t ∈ known then known else known ++ [t]) rest

@[simp] theorem finish_nil (known : List g.Term) : g.finish known [] = known := by
  rfl

@[simp] theorem finish_enter (known : List g.Term) (t : g.Term) (rest : List (Task g.Term)) :
    g.finish known (.enter t :: rest) = g.finish (g.visit known t) rest := by
  rfl

theorem finish_enter_of_mem
    (h : t ∈ known) :
    g.finish known (.enter t :: rest) = g.finish known rest := by
  rw [finish_enter, visit_of_mem h]

theorem finish_leave_of_mem
    (h : t ∈ known) :
    g.finish known (.leave t :: rest) = g.finish known rest := by
  rw [finish, if_pos h]

theorem finish_leave_of_not_mem
    (h : t ∉ known) :
    g.finish known (.leave t :: rest) = g.finish (known ++ [t]) rest := by
  rw [finish, if_neg h]

theorem finish_enter_all (known ts : List g.Term) (rest : List (Task g.Term)) :
    g.finish known (ts.map Task.enter ++ rest) = g.finish (g.visitAll known ts) rest := by
  induction ts generalizing known with
  | nil => rfl
  | cons t ts ih =>
      rw [List.map_cons, List.cons_append, finish_enter, ih, visitAll_cons]

/-- Terms that are known need not be visited. -/
theorem visitAll_filter
    {p : g.Term → Bool}
    (hp : ∀ u ∈ ts, p u = false → u ∈ known) :
    g.visitAll known (ts.filter p) = g.visitAll known ts := by
  induction ts generalizing known with
  | nil => rfl
  | cons t ts ih =>
      have hrest : ∀ u ∈ ts, p u = false → u ∈ g.visit known t := by
        intro u hu hpu
        exact mem_visit_of_mem (hp u (List.mem_cons_of_mem t hu) hpu) t
      cases ht : p t with
      | true => rw [List.filter_cons_of_pos ht, visitAll_cons, visitAll_cons, ih hrest]
      | false =>
          have hmem := hp t (by simp) ht
          rw [List.filter_cons_of_neg (by simp [ht]), visitAll_cons, visit_of_mem hmem]
          exact ih fun u hu => hp u (List.mem_cons_of_mem t hu)

/-- Entering the operands of a term that are not known and then leaving the term appends what
entering the term does. -/
theorem finish_expand
    {p : g.Term → Bool}
    (ht : t ∉ known)
    (hp : ∀ u ∈ g.operands t, p u = false → u ∈ known) :
    g.finish known (((g.operands t).filter p).map Task.enter ++ .leave t :: rest) =
      g.finish known (.enter t :: rest) := by
  rw [finish_enter_all, visitAll_filter hp, finish_enter, visit_of_not_mem ht]
  exact finish_leave_of_not_mem (not_mem_visitAll_operands ht)

/-- The tasks on a stack append. -/
theorem exists_finish_eq_append (known : List g.Term) (stack : List (Task g.Term)) :
    ∃ more, g.finish known stack = known ++ more := by
  induction stack generalizing known with
  | nil => exact ⟨[], (List.append_nil known).symm⟩
  | cons a rest ih =>
      cases a with
      | enter t =>
          obtain ⟨added, hadded, -⟩ := exists_visit_eq_append known t
          obtain ⟨more, hmore⟩ := ih (g.visit known t)
          exact ⟨added ++ more, by rw [finish_enter, hmore, hadded, List.append_assoc]⟩
      | leave t =>
          by_cases ht : t ∈ known
          · rw [finish_leave_of_mem ht]
            exact ih known
          · obtain ⟨more, hmore⟩ := ih (known ++ [t])
            exact ⟨t :: more, by rw [finish_leave_of_not_mem ht, hmore, List.append_assoc]; rfl⟩

/-- Above the `leave` of a term there are tasks for earlier terms only.  This stays so when a term
is expanded into earlier ones. -/
theorem pairwise_expand
    {t : g.Term} {ts : List g.Term} {rest : List (Task g.Term)}
    (h : (Task.enter t :: rest).Pairwise fun a b => ∀ p, b = .leave p → a.term < p)
    (hts : ∀ u ∈ ts, u < t) :
    (ts.map Task.enter ++ .leave t :: rest).Pairwise fun a b =>
      ∀ p, b = .leave p → a.term < p := by
  obtain ⟨habove, hrest⟩ := List.pairwise_cons.1 h
  rw [List.pairwise_append, List.pairwise_map, List.pairwise_cons]
  refine ⟨?_, ⟨habove, hrest⟩, ?_⟩
  · exact List.pairwise_of_forall fun _ _ p hp => by cases hp
  · intro a ha b hb p hp
    obtain ⟨u, hu, rfl⟩ := List.mem_map.1 ha
    have hut : u < t := hts u hu
    rcases List.mem_cons.1 hb with rfl | hb
    · cases hp
      exact hut
    · exact lt_trans hut (habove b hb p hp)

/-- The tasks stay among the terms below the root when a term is expanded into its operands. -/
theorem pending_expand
    {root t : g.Term} {ts : List g.Term} {rest : List (Task g.Term)}
    (h : ∀ a ∈ Task.enter t :: rest, g.Reaches root a.term)
    (hts : ∀ u ∈ ts, u ∈ g.operands t) :
    ∀ a ∈ ts.map Task.enter ++ .leave t :: rest, g.Reaches root a.term := by
  have hreach : g.Reaches root t := h (.enter t) (by simp)
  intro a ha
  rcases List.mem_append.1 ha with ha | ha
  · obtain ⟨u, hu, rfl⟩ := List.mem_map.1 ha
    exact hreach.tail (hts u hu)
  · rcases List.mem_cons.1 ha with rfl | ha
    · exact hreach
    · exact h a (List.mem_cons_of_mem _ ha)

end Stack

section Walk

variable {root : g.Term}

/-- What every step of a walk keeps holds where the walk ends, and there no task is left. -/
theorem walkFrom_preserves
    {P : WalkState g → Prop}
    (hstep : ∀ s, P s → s.stack ≠ [] → P (g.walkStep s))
    (s : WalkState g)
    (hs : P s) :
    P (g.walkFrom s) ∧ (g.walkFrom s).stack = [] := by
  rw [walkFrom]
  split
  · exact ⟨hs, ‹_›⟩
  · exact walkFrom_preserves hstep (g.walkStep s) (hstep s hs ‹_›)
termination_by g.load s.stack
decreasing_by exact g.load_walkStep_lt s ‹_›

/-- A walk between two tasks.  The marks are on the terms that have been visited or are about to
be left; above the `leave` of a term there are tasks for earlier terms only. -/
structure Walking (root : g.Term) (s : WalkState g) : Prop where
  seen : ∀ u, s.seen.get u = true ↔ u ∈ s.visited ∨ .leave u ∈ s.stack
  above : s.stack.Pairwise fun a b => ∀ p, b = .leave p → a.term < p
  unvisited : ∀ p, .leave p ∈ s.stack → p ∉ s.visited
  order : g.finish s.visited.toList s.stack = g.visit [] root

variable {seen : g.Table Bool} {visited : Array g.Term} {t : g.Term} {rest : List (Task g.Term)}

/-- Of the terms not after the one to be entered, those that have been visited have marks. -/
theorem Walking.seen_iff
    (h : Walking root ⟨seen, visited, .enter t :: rest⟩)
    {u : g.Term}
    (hu : u ≤ t) :
    seen.get u = true ↔ u ∈ visited := by
  rw [h.seen u]
  constructor
  · rintro (hvisited | hleave)
    · exact hvisited
    · have hrest := Task.leave_mem_enter.1 hleave
      have hlt : t < u := (List.pairwise_cons.1 h.above).1 _ hrest u rfl
      exact absurd hlt (not_lt.2 hu)
  · exact .inl

/-- A term with a mark is not entered. -/
theorem Walking.skip
    (h : Walking root ⟨seen, visited, .enter t :: rest⟩)
    (ht : seen.get t = true) :
    Walking root ⟨seen, visited, rest⟩ := by
  constructor
  · intro u
    rw [h.seen u]
    simp
  · exact (List.pairwise_cons.1 h.above).2
  · exact fun p hp => h.unvisited p (List.mem_cons_of_mem _ hp)
  · rw [← h.order]
    exact (finish_enter_of_mem (by simpa using (h.seen_iff (le_refl t)).1 ht)).symm

/-- A term without a mark is left after its operands. -/
theorem Walking.expand
    (h : Walking root ⟨seen, visited, .enter t :: rest⟩)
    (ht : ¬ seen.get t = true) :
    Walking root ⟨g.enterAt seen t true, visited,
      ((g.operands t).filter fun u => !(g.enterAt seen t true).get u).map Task.enter ++
        .leave t :: rest⟩ := by
  have hlt : ∀ u ∈ g.operands t, u < t := fun u hu => g.lt_of_mem_operands hu
  have hvisited : t ∉ visited := (h.seen_iff (le_refl t)).not.1 ht
  constructor
  · intro u
    rw [get_enterAt]
    split
    · rename_i htu
      subst htu
      simp
    · rename_i htu
      rw [h.seen u]
      simp [Ne.symm htu]
  · exact pairwise_expand h.above fun u hu => hlt u (List.mem_filter.1 hu).1
  · intro p hp
    rcases Task.leave_mem_expand.1 hp with rfl | hp
    · exact hvisited
    · exact h.unvisited p (List.mem_cons_of_mem _ hp)
  · rw [← h.order]
    apply finish_expand (by simpa using hvisited)
    intro u hu hmark
    rw [get_enterAt, if_neg (ne_of_gt (hlt u hu))] at hmark
    have hseen : seen.get u = true := by simpa using hmark
    simpa using (h.seen_iff (le_of_lt (hlt u hu))).1 hseen

/-- A term that is left has been visited. -/
theorem Walking.leave
    (h : Walking root ⟨seen, visited, .leave t :: rest⟩) :
    Walking root ⟨seen, visited.push t, rest⟩ := by
  obtain ⟨habove, hrest⟩ := List.pairwise_cons.1 h.above
  have hvisited : t ∉ visited := h.unvisited t (by simp)
  constructor
  · intro u
    rw [h.seen u]
    simp [or_assoc]
  · exact hrest
  · intro p hp hmem
    rcases Array.mem_push.1 hmem with hmem | rfl
    · exact h.unvisited p (List.mem_cons_of_mem _ hp) hmem
    · exact absurd (habove _ hp p rfl) (lt_irrefl p)
  · rw [← h.order, Array.toList_push]
    exact (finish_leave_of_not_mem (by simpa using hvisited)).symm

theorem Walking.step
    {s : WalkState g}
    (h : Walking root s)
    (hs : s.stack ≠ []) :
    Walking root (g.walkStep s) := by
  rcases s with ⟨seen, visited, _ | ⟨t | t, rest⟩⟩
  · exact absurd rfl hs
  · rw [walkStep]
    split
    · exact h.skip ‹_›
    · exact h.expand ‹_›
  · exact h.leave

theorem Walking.start (root : g.Term) : Walking root (g.walkStart root) := by
  constructor
  · simp [walkStart]
  · simp [walkStart]
  · simp [walkStart]
  · rfl

/-- A walk lists the terms in the order of a visit. -/
theorem walk_eq_visit (root : g.Term) : g.walk root = g.visit [] root := by
  obtain ⟨hend, hstack⟩ := walkFrom_preserves (fun s h hs => h.step hs) _ (Walking.start root)
  have horder := hend.order
  rw [hstack] at horder
  exact horder

theorem nodup_walk (root : g.Term) : (g.walk root).Nodup := by
  rw [walk_eq_visit]
  exact nodup_visit List.nodup_nil root

/-- A walk meets what its root reaches. -/
theorem mem_walk
    {t : g.Term} :
    t ∈ g.walk root ↔ g.Reaches root t := by
  rw [walk_eq_visit, mem_visit (by simp)]
  simp

/-- The variables that are collected from distinct visits, none of them collected before, come in
the order of the visits. -/
theorem collectFrom_eq_append
    {collected : List g.Variable} {visits : List g.Term}
    (hvisits : visits.Nodup)
    (hnew : ∀ v ∈ collected, v.1 ∉ visits) :
    g.collectFrom collected visits = collected ++ visits.filterMap g.asVariable? := by
  induction visits generalizing collected with
  | nil => simp [collectFrom]
  | cons t visits ih =>
      obtain ⟨ht, hvisits⟩ := List.nodup_cons.1 hvisits
      rw [collectFrom, List.foldl_cons]
      cases hvar : g.asVariable? t with
      | none =>
          rw [List.filterMap_cons_none hvar]
          exact ih hvisits fun v hv hmem => hnew v hv (List.mem_cons_of_mem t hmem)
      | some v =>
          have hv : v.1 = t := asVariable?_eq_some_iff.1 hvar
          have hfresh : v ∉ collected := fun hmem => hnew v hmem (by simp [hv])
          rw [List.filterMap_cons_some hvar, List.append_cons]
          have hnew' : ∀ w ∈ collected ++ [v], w.1 ∉ visits := by
            intro w hw hmem
            rcases List.mem_append.1 hw with hw | hw
            · exact hnew w hw (List.mem_cons_of_mem t hmem)
            · rw [List.mem_singleton.1 hw, hv] at hmem
              exact ht hmem
          simp only [if_neg hfresh]
          exact ih hvisits hnew'

/-- The variables of a term in the order in which a walk meets them. -/
theorem vars_eq_filterMap (root : g.Term) :
    g.vars root = (g.walk root).filterMap g.asVariable? :=
  collectFrom_eq_append (nodup_walk root) (by simp)

theorem nodup_vars (root : g.Term) : (g.vars root).Nodup := by
  rw [vars_eq_filterMap]
  refine (nodup_walk root).filterMap fun t u v ht hu => ?_
  exact (asVariable?_eq_some_iff.1 ht).symm.trans (asVariable?_eq_some_iff.1 hu)

end Walk
end Graph
end ReverseMode
