import ReverseMode.Proofs.Lowering.Refusal
import ReverseMode.Proofs.Tape.Renumber

/-!
# The tapes of a term over several lists of its variables

**Argument.**  Lowering a term over a list of variables and over another list that has them all
takes the same tasks in the same order.  A variable has the slot of its place in the list, and all
other terms get their slots in one order.  So each step keeps the tape over the one list renumbered
into the tape over the other, with the tables of slots renumbered alike below the root.

**Results.**
* `Renumbered.withSlot`: renumbered tapes that grow by the same slot stay renumbered.
* `Mirrors.step`, `Mirrors.lowerFrom`: what one step keeps, the loop keeps.
* `renumbered_ofTerm`: the tape of a term over a list of variables is renumbered into its tape over
  any longer list.
-/

namespace ReverseMode

variable {κ α : Type} {n m : Nat} {σ : Renumbering n m}

namespace Tape

variable {t u : Tape κ α}

section Growing

/-- The tables of functions have no numbers of slots. -/
theorem Renumbered.setCallbacks
    (h : Renumbered σ t u)
    (c : Callbacks α) :
    Renumbered σ { t with callbacks := c } { u with callbacks := c } :=
  { h with callbacks := rfl }

/-- The next index moves like all others. -/
theorem Renumbered.size_eq (h : Renumbered σ t u) : u.size = σ t.size := by
  have hsize := h.size
  have hnew := σ.shifted t.size h.le_size
  omega

variable [Scalar κ α]

theorem Renumbered.withSlot
    (h : Renumbered σ t u)
    (op : Op κ) (v : α) (sources : List Nat) :
    Renumbered σ (t.withSlot op v sources) (u.withSlot op v (sources.map σ)) := by
  have hle := h.le_size
  refine { h with le_size := ?_, size := ?_, slots := ?_, edges := ?_ }
  · rw [size_withSlot]
    omega
  · rw [size_withSlot, size_withSlot]
    have hsize := h.size
    omega
  · intro i
    have hlast : σ i = u.slots.size ↔ i = t.slots.size := by
      rw [show u.slots.size = σ t.slots.size from h.size_eq, σ.eq_iff]
    rw [slots_withSlot, slots_withSlot, Array.getElem?_push, Array.getElem?_push, h.slots, h.edges,
      Array.size_map, List.length_map]
    simp only [hlast]
  · rw [edges_withSlot, edges_withSlot, h.edges, Array.map_append]
    congr 1
    rw [newEdges, newEdges, List.map_toArray, List.map_map, List.map_map]
    rfl

theorem Renumbered.pushOp
    {op : Op κ} {sources : List Nat} {r r' : Nat × Tape κ α}
    (h : Renumbered σ t u)
    (hr : t.pushOp op sources = .ok r)
    (hr' : u.pushOp op (sources.map σ) = .ok r') :
    Renumbered σ r.2 r'.2 := by
  obtain ⟨-, -, -, rfl⟩ := pushOp_eq_ok hr
  obtain ⟨-, -, -, rfl⟩ := pushOp_eq_ok hr'
  exact h.withSlot op 0 sources

end Growing
end Tape

namespace Graph

open Tape

variable [Exponent κ] {g : Graph κ α} {root : g.Term}

section Emission

variable {slots slots' : g.Table (Option Nat)} {tape tape' : Tape κ α}

/-- A table of slots with the new numbers of the slots, below a root. -/
def Moved (σ : Renumbering n m) (root : g.Term) (slots slots' : g.Table (Option Nat)) : Prop :=
  ∀ t, g.Reaches root t → slots'.get t = (slots.get t).map σ

theorem Moved.operandSlots
    {ts : List g.Term}
    (h : Moved σ root slots slots')
    (hts : ∀ t ∈ ts, g.Reaches root t) :
    g.operandSlots slots' ts = (g.operandSlots slots ts).map (List.map σ) := by
  rw [Graph.operandSlots, Graph.operandSlots]
  conv_lhs => rw [← List.map_id ts]
  refine mapM_mirror id σ fun t ht => ?_
  rw [id, h t (hts t ht)]
  cases slots.get t <;> rfl

theorem Moved.enterAt
    (h : Moved σ root slots slots')
    (t : g.Term) (i : Nat) :
    Moved σ root (g.enterAt slots t (some i)) (g.enterAt slots' t (some (σ i))) := by
  intro w hw
  rw [get_enterAt, get_enterAt]
  split
  · rfl
  · exact h w hw

variable [Scalar κ α]

/-- The slot of a term is appended on both sides. -/
theorem Moved.emit
    {t : g.Term} {r r' : Nat × Tape κ α}
    (h : Moved σ root slots slots')
    (ht : g.Reaches root t)
    (htape : Renumbered σ tape tape')
    (hr : g.emit t slots tape = .ok r)
    (hr' : g.emit t slots' tape' = .ok r') :
    r'.1 = σ r.1 ∧ Renumbered σ r.2 r'.2 := by
  obtain ⟨op, v, sources, hslot, hsources, rfl⟩ := emit_eq_ok hr
  obtain ⟨op', v', sources', hslot', hsources', rfl⟩ := emit_eq_ok hr'
  rw [htape.callbacks, hslot] at hslot'
  rw [h.operandSlots fun u hu => ht.tail hu, hsources] at hsources'
  obtain ⟨rfl, rfl⟩ := Prod.mk.inj (Option.some.inj hslot')
  obtain rfl := Except.ok.inj hsources'
  rw [htape.callbacks]
  exact ⟨htape.size_eq, (htape.setCallbacks _).withSlot op v sources⟩

end Emission

section Pass

variable [Scalar κ α]

/-- Two states that lower the same tasks below a root onto renumbered tapes. -/
structure Mirrors (σ : Renumbering n m) (root : g.Term) (s s' : LoweringState g) : Prop where
  tape : Renumbered σ s.tape s'.tape
  slots : Moved σ root s.slots s'.slots
  stack : s'.stack = s.stack
  pending : ∀ a ∈ s.stack, g.Reaches root a.term

/-- A step takes the same task on both sides. -/
theorem Mirrors.step
    {s s' r r' : LoweringState g}
    (h : Mirrors σ root s s')
    (hr : g.lowerStep s = .ok r)
    (hr' : g.lowerStep s' = .ok r') :
    Mirrors σ root r r' := by
  obtain ⟨tape, slots, hits, stack⟩ := s
  obtain ⟨tape', slots', hits', stack'⟩ := s'
  obtain ⟨htape, hslots, rfl, hpending⟩ := h
  rcases stack' with _ | ⟨t | t, rest⟩
  · cases hr
    cases hr'
    exact ⟨htape, hslots, rfl, hpending⟩
  · have ht : g.Reaches root t := hpending _ List.mem_cons_self
    have hrest : ∀ a ∈ rest, g.Reaches root a.term :=
      fun a ha => hpending a (List.mem_cons_of_mem _ ha)
    rw [lowerStep] at hr hr'
    rw [hslots t ht, Option.isSome_map] at hr'
    split at hr
    · rw [if_pos ‹_›] at hr'
      cases hr
      cases hr'
      exact ⟨htape, hslots, rfl, hrest⟩
    · rename_i hnew
      rw [if_neg hnew] at hr'
      split at hr
      · cases hr
      · rename_i hvar
        rw [if_neg hvar] at hr'
        have hfresh : (g.operands t).filter (fun u => (slots'.get u).isNone) =
            (g.operands t).filter fun u => (slots.get u).isNone := by
          apply List.filter_congr
          intro u hu
          rw [hslots u (ht.tail hu), Option.isNone_map]
        cases hr
        cases hr'
        refine ⟨htape, hslots, by simp only [hfresh], ?_⟩
        intro a ha
        rcases List.mem_append.1 ha with ha | ha
        · obtain ⟨u, hu, rfl⟩ := List.mem_map.1 ha
          exact ht.tail (List.mem_filter.1 hu).1
        · rcases List.mem_cons.1 ha with rfl | ha
          · exact ht
          · exact hrest a ha
  · have ht : g.Reaches root t := hpending _ List.mem_cons_self
    have hrest : ∀ a ∈ rest, g.Reaches root a.term :=
      fun a ha => hpending a (List.mem_cons_of_mem _ ha)
    rw [lowerStep] at hr hr'
    rw [hslots t ht, Option.isSome_map] at hr'
    split at hr
    · rw [if_pos ‹_›] at hr'
      cases hr
      cases hr'
      exact ⟨htape, hslots, rfl, hrest⟩
    · rename_i hnew
      rw [if_neg hnew] at hr'
      split at hr
      · cases hr
      · split at hr'
        · cases hr'
        · rename_i hemit _ _ _ hemit'
          obtain ⟨hslot, hgrown⟩ := hslots.emit ht htape hemit hemit'
          cases hr
          cases hr'
          refine ⟨hgrown, ?_, rfl, hrest⟩
          obtain rfl := hslot
          exact hslots.enterAt t _

/-- The loop takes the same tasks on both sides. -/
theorem Mirrors.lowerFrom
    {s s' r r' : LoweringState g}
    (h : Mirrors σ root s s')
    (hr : g.lowerFrom s = .ok r)
    (hr' : g.lowerFrom s' = .ok r') :
    Mirrors σ root r r' := by
  by_cases hn : s.stack = []
  · rw [lowerFrom_nil hn] at hr
    rw [lowerFrom_nil (h.stack.trans hn)] at hr'
    cases hr
    cases hr'
    exact h
  · have hn' : s'.stack ≠ [] := by
      rw [h.stack]
      exact hn
    cases hstep : g.lowerStep s with
    | error e =>
        rw [lowerFrom_error hn hstep] at hr
        cases hr
    | ok q =>
        cases hstep' : g.lowerStep s' with
        | error e =>
            rw [lowerFrom_error hn' hstep'] at hr'
            cases hr'
        | ok q' =>
            rw [lowerFrom_step hn hstep] at hr
            rw [lowerFrom_step hn' hstep'] at hr'
            exact (h.step hstep hstep').lowerFrom hr hr'
termination_by g.load s.stack
decreasing_by exact g.load_lowerStep_lt hstep hn

variable {us ws : List g.Variable} {tape tape' : Tape κ α} {slots slots' : g.Table (Option Nat)}

/-- Bound variables have new slots in a list that has them all. -/
theorem Binds.renumbered
    {σ : Renumbering us.length ws.length}
    (h : Binds us tape slots)
    (h' : Binds ws tape' slots')
    (hcovers : Covers us root)
    (hσ : σ.Moves us ws) :
    Renumbered σ tape tape' ∧ Moved σ root slots slots' := by
  constructor
  · constructor
    · exact h.dimension
    · exact h'.dimension
    · exact Nat.le_of_eq h.size.symm
    · rw [h.callbacks, h'.callbacks]
    · rw [h.size, h'.size, Nat.add_comm]
    · intro i
      rw [h.inputs, h'.inputs, Array.getElem?_replicate, Array.getElem?_replicate]
      simp only [σ.lt_inputs_iff]
    · rw [h.edges, h'.edges, Array.map_empty]
  · intro t ht
    cases hslot : slots.get t with
    | some i =>
        have hi := (h.located t i).1 hslot
        rw [List.getElem?_map, Option.map_eq_some_iff] at hi
        obtain ⟨y, hy, rfl⟩ := hi
        have hlt := (List.getElem?_eq_some_iff.1 hy).1
        refine (h'.located y.1 (σ i)).2 ?_
        rw [List.getElem?_map, hσ.getElem? i hlt, hy]
        rfl
    | none =>
        apply h'.located.get_eq_none
        intro hmem
        obtain ⟨y, -, rfl⟩ := List.mem_map.1 hmem
        have hbound : (slots.get y.1).isSome :=
          h.located.isSome_iff.2 (List.mem_map_of_mem (hcovers.2 y (mem_vars.2 ht)))
        rw [hslot] at hbound
        cases hbound

theorem exists_binds
    {s : LoweringState g}
    (h : g.lower root us = .ok s) :
    ∃ tape slots, Binds us tape slots ∧ g.lowerFrom ⟨tape, slots, 0, [.enter root]⟩ = .ok s := by
  rw [lower] at h
  obtain ⟨⟨tape, slots⟩, hbind, h⟩ := bind_eq_ok_iff.1 h
  refine ⟨tape, slots, ?_, h⟩
  rcases bindAll_outcome root us with ⟨r, hr, hbinds⟩ | ⟨e, he, -⟩
  · obtain rfl := Except.ok.inj (hbind.symm.trans hr)
    exact hbinds
  · cases hbind.symm.trans he

/-- The tape of a term over a list of variables is renumbered into its tape over a list that has
them all. -/
theorem renumbered_ofTerm
    {l l' : Lowered κ α}
    (hcovers : Covers us root)
    (hsub : us ⊆ ws)
    (hl : Tape.ofTerm g root us = .ok l)
    (hl' : Tape.ofTerm g root ws = .ok l') :
    ∃ σ : Renumbering us.length ws.length, σ.Moves us ws ∧ Renumbered σ l.tape l'.tape := by
  rw [Tape.ofTerm] at hl hl'
  obtain ⟨s, hs, hl⟩ := bind_eq_ok_iff.1 hl
  obtain ⟨s', hs', hl'⟩ := bind_eq_ok_iff.1 hl'
  obtain ⟨tape, slots, hbinds, hloop⟩ := exists_binds hs
  obtain ⟨tape', slots', hbinds', hloop'⟩ := exists_binds hs'
  obtain ⟨σ, hσ⟩ := exists_renumbering hcovers.1 hsub
  obtain ⟨htape, hslots⟩ := hbinds.renumbered hbinds' hcovers hσ
  have hstart : Mirrors σ root ⟨tape, slots, 0, [.enter root]⟩ ⟨tape', slots', 0, [.enter root]⟩ :=
    ⟨htape, hslots, rfl, fun a ha => by rw [List.mem_singleton.1 ha]; exact .refl⟩
  have hmirrors := hstart.lowerFrom hloop hloop'
  refine ⟨σ, hσ, ?_⟩
  rw [hmirrors.slots root .refl] at hl'
  split at hl
  · cases hl
  · rename_i slot hslot
    simp only [hslot, Option.map_some, σ.lt_inputs_iff] at hl'
    split at hl
    · rename_i hvar
      rw [if_pos hvar] at hl'
      split at hl
      · cases hl
      · split at hl'
        · cases hl'
        · rename_i hpush _ _ _ hpush'
          cases hl
          cases hl'
          exact hmirrors.tape.pushOp hpush hpush'
    · rename_i hvar
      rw [if_neg hvar] at hl'
      cases hl
      cases hl'
      exact hmirrors.tape

end Pass
end Graph
end ReverseMode
