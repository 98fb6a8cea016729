import ReverseMode.Proofs.Lowering.Run

/-!
# The tape of a term

**Argument.**  At the end of the run the root has a slot.  A walk visits its root last, so a
computed root has the last slot; a lone variable is wrapped in the power 1.

**Results.**
* `ofTerm_outcome`: every term has a tape that ends with it, or is refused for a cause.
* `size_of_ofTerm`, `exists_ofTerm`, `ofTerm_eq_tapeTooLong`: how many slots the tape has, and that
  a term is refused for them just when there are more than indices.
* `ofTerm_spec`: a term that fits has a tape, and the tape `Represents` it.
* `Represents.op_cases`: what the operation of a slot of such a tape can be.
* `Represents.handlesRegistered`: the functions that such a tape calls are registered.
-/

namespace ReverseMode
namespace Graph

variable {κ α : Type} [Exponent κ] {g : Graph κ α}

section Output

variable [Scalar κ α] {root : g.Term} {vs : List g.Variable} {tape : Tape κ α} {done : List g.Term}

/-- How the last slot gives the root: it stands for the root, or it is the power 1 of the slot
that does. -/
inductive Output (root : g.Term) (vs : List g.Variable) (tape : Tape κ α) (done : List g.Term) :
    Prop where
  | computed
      (hsize : tape.size = (slotTerms vs done).length)
      (hroot : (slotTerms vs done)[tape.size - 1]? = some root)
  | wrapped {i : Nat} {s : Slot κ α}
      (hsize : tape.size = (slotTerms vs done).length + 1)
      (hs : tape.slots[tape.size - 1]? = some s)
      (hop : s.op = .constPower Exponent.one)
      (hsource : tape.sourcesIn s.inputs = [i])
      (hroot : (slotTerms vs done)[i]? = some root)

/-- A tape over given variables whose last slot is the root. -/
structure Represents (root : g.Term) (vs : List g.Variable) (tape : Tape κ α)
    (done : List g.Term) : Prop where
  sound : tape.Sound
  tiled : tape.Tiled
  layout : Layout vs tape done
  output : Output root vs tape done

theorem Represents.size_pos
    (h : Represents root vs tape done) :
    0 < tape.size := by
  rcases h.output with ⟨hsize, hroot⟩ | ⟨hsize, -, -, -, -⟩
  · have := (List.getElem?_eq_some_iff.1 hroot).1
    omega
  · omega

/-- Every slot is a variable, stands for a term or wraps one. -/
theorem Represents.slot_cases
    (h : Represents root vs tape done)
    {i : Nat}
    (hi : i < tape.size) :
    (∃ t, (slotTerms vs done)[i]? = some t) ∨
      i = tape.size - 1 ∧ tape.size = (slotTerms vs done).length + 1 := by
  by_cases hlt : i < (slotTerms vs done).length
  · exact .inl ⟨_, List.getElem?_eq_getElem hlt⟩
  · rcases h.output with ⟨hsize, -⟩ | ⟨hsize, -, -, -, -⟩
    · omega
    · exact .inr ⟨by omega, hsize⟩

theorem Represents.input
    (h : Represents root vs tape done)
    {i : Nat}
    (hi : i < vs.length) :
    ∃ s : Slot κ α, tape.slots[i]? = some s ∧ s.op = .input := by
  have hdimension := h.layout.dimension
  have hle := h.sound.dimension_le
  obtain ⟨s, hs⟩ := Tape.exists_slot (t := tape) (i := i) (by omega)
  have hinput := (h.sound.slot hs).input_iff.2 (by omega)
  refine ⟨s, hs, ?_⟩
  cases hop : s.op with
  | input => rfl
  | _ =>
      rw [hop] at hinput
      cases hinput

/-- A slot is that of a variable, of a term with the slots of its operands, or the wrapper. -/
theorem Represents.op_cases
    (h : Represents root vs tape done)
    {i : Nat} {s : Slot κ α}
    (hs : tape.slots[i]? = some s) :
    s.op = .input ∨
      (∃ t ∈ done, Stands tape.callbacks (g.node t) s.op s.value ∧
        (tape.sourcesIn s.inputs).map (fun j => (slotTerms vs done)[j]?) =
          (g.operands t).map some) ∨
      s.op = .constPower Exponent.one := by
  have hlt := Tape.lt_size_of_slot hs
  rcases h.slot_cases hlt with ⟨t, ht⟩ | ⟨hlast, hsize⟩
  · rcases slotTerms_cases ht with ⟨v, hv, -⟩ | ⟨k, rfl, hk⟩
    · obtain ⟨r, hr, hop⟩ := h.input (List.getElem?_eq_some_iff.1 hv).1
      obtain rfl : r = s := Option.some.inj (hr.symm.trans hs)
      exact .inl hop
    · obtain ⟨r, hr, hstands, hoperands⟩ := h.layout.stands k t hk
      obtain rfl : r = s := Option.some.inj (hr.symm.trans hs)
      exact .inr (.inl ⟨t, List.mem_of_getElem? hk, hstands, hoperands⟩)
  · rcases h.output with ⟨hsize', -⟩ | ⟨-, hr, hop, -, -⟩
    · omega
    · rw [← hlast, hs] at hr
      obtain rfl := Option.some.inj hr
      exact .inr (.inr hop)

/-- The functions that the slots of a term call are registered. -/
theorem Represents.handlesRegistered
    (h : Represents root vs tape done) :
    tape.HandlesRegistered := by
  intro s hs
  obtain ⟨i, hi⟩ := Array.mem_iff_getElem?.1 hs
  rcases h.op_cases hi with hop | ⟨t, -, hstands, -⟩ | hop
  · rw [hop]
    trivial
  · exact hstands.registered
  · rw [hop]
    trivial

/-- Whatever lowering makes, its windows lie one after another if its edge table fits. -/
theorem Represents.of_ofTerm
    {l : Lowered κ α}
    (h : Tape.ofTerm g root vs = .ok l)
    (hcap : l.tape.edges.size < UInt32.size)
    (hlayout : Layout vs l.tape done)
    (houtput : Output root vs l.tape done) :
    Represents root vs l.tape done := by
  have hreach : l.tape.Reachable := .ofTerm h
  exact ⟨hreach.sound, hreach.tiled hcap, hlayout, houtput⟩

/-- How a tape ends: with the slot of the root, or with the power 1 of a variable. -/
inductive Ends (root : g.Term) (vs : List g.Variable) (tape : Tape κ α) (done : List g.Term) :
    Tape κ α → Prop where
  | computed :
      g.isVariable root = false → (slotTerms vs done)[tape.size - 1]? = some root →
        Ends root vs tape done tape
  | wrapped {i : Nat} :
      g.isVariable root = true → (slotTerms vs done)[i]? = some root →
        Ends root vs tape done (tape.withSlot (.constPower Exponent.one) 0 [i])

variable {s : LoweringState g} {tape' : Tape κ α}

/-- A computed root is the last term of the pass. -/
theorem Finished.last
    (h : Finished root vs s done)
    (hroot : g.isVariable root = false) :
    (slotTerms vs done)[s.tape.size - 1]? = some root := by
  have hmem : root ∉ vs.map fun v => v.1 := by
    intro hmem
    obtain ⟨v, -, hv⟩ := List.mem_map.1 hmem
    exact absurd (v.2.symm.trans (hv ▸ hroot)) (by decide)
  have hdone : ∃ before, done = before ++ [root] := by
    rw [h.done_eq, walk_eq_visit, visit_of_not_mem List.not_mem_nil, List.filter_append]
    exact ⟨_, by rw [List.filter_singleton, decide_eq_true hmem]; rfl⟩
  obtain ⟨before, rfl⟩ := hdone
  rw [h.progress.size, ← List.getLast?_eq_getElem?, slotTerms_append, List.getLast?_concat]

/-- The tape of a term ends with it, or an error has its cause. -/
theorem ofTerm_outcome (root : g.Term) (vs : List g.Variable) :
    (∃ l, Tape.ofTerm g root vs = .ok l ∧
      ∃ s done, Finished root vs s done ∧ Ends root vs s.tape done l.tape) ∨
    ∃ e, Tape.ofTerm g root vs = .error e ∧ Refusal root vs e := by
  rcases lower_outcome root vs with ⟨s, hlower, done, h⟩ | ⟨e, hlower, hrefused⟩
  · have hP := h.progress
    have hmem : root ∈ slotTerms vs done := h.mem_slotTerms .refl
    obtain ⟨slot, hslot⟩ := Option.isSome_iff_exists.1 (hP.located.isSome_iff.2 hmem)
    have hroot := (hP.located root slot).1 hslot
    rw [Tape.ofTerm, hlower, ok_bind]
    simp only [hslot]
    by_cases hvar : slot < vs.length
    · have hrootVar : g.isVariable root = true := by
        rcases slotTerms_cases hroot with ⟨v, -, rfl⟩ | ⟨k, rfl, -⟩
        · exact v.2
        · omega
      have hlt : ∀ j ∈ [slot], j < s.tape.size := by
        intro j hj
        rw [List.mem_singleton] at hj
        rw [hj, hP.size]
        exact (List.getElem?_eq_some_iff.1 hroot).1
      have hpush : s.tape.pushOp (.constPower Exponent.one) [slot] =
          s.tape.pushSlot (.constPower Exponent.one) 0 [slot] :=
        Tape.pushOp_of_pushable rfl hlt
      simp only [if_pos hvar, hpush]
      by_cases hsize : s.tape.size < indexLimit
      · simp only [Tape.pushSlot_of_lt hsize]
        exact .inl ⟨_, rfl, s, done, h, .wrapped hrootVar hroot⟩
      · simp only [Tape.pushSlot_of_le (Nat.le_of_not_lt hsize)]
        refine .inr ⟨_, rfl, .tooLong ?_⟩
        have hcard := length_le_card hP.nodup hP.below
        have hlength := hP.size
        rw [length_slotTerms] at hlength
        rw [wrappers, if_pos hrootVar]
        omega
    · have hrootVar : g.isVariable root = false := by
        rcases slotTerms_cases hroot with ⟨v, hv, -⟩ | ⟨k, -, hk⟩
        · exact absurd (List.getElem?_eq_some_iff.1 hv).1 hvar
        · exact (Graph.mem_computedBelow.1 (hP.below root (List.mem_of_getElem? hk))).2
      simp only [if_neg hvar]
      exact .inl ⟨_, rfl, s, done, h, .computed hrootVar (h.last hrootVar)⟩
  · exact .inr ⟨e, by rw [Tape.ofTerm, hlower, error_bind], hrefused⟩

theorem Ends.size_eq
    (h : Ends root vs tape done tape') :
    tape'.size = tape.size + g.wrappers root := by
  cases h with
  | computed hvar _ => simp [wrappers, hvar]
  | wrapped hvar _ => simp [wrappers, hvar]

theorem Ends.size_edges_eq
    (h : Ends root vs tape done tape') :
    tape'.edges.size = tape.edges.size + g.wrappers root := by
  cases h with
  | computed hvar _ => simp [wrappers, hvar]
  | wrapped hvar _ => simp [wrappers, hvar]

/-- The wrapper of a lone variable has no function to call. -/
theorem Ends.same
    (h : Ends root vs tape done tape') :
    tape'.dimension = tape.dimension ∧ tape'.callbackCount = tape.callbackCount ∧
      (tape.HandlesRegistered → tape'.HandlesRegistered) := by
  cases h with
  | computed _ _ => exact ⟨rfl, rfl, id⟩
  | wrapped _ _ =>
      refine ⟨rfl, Tape.callbackCount_withSlot _ _ _ _, fun hreg => ?_⟩
      have hone : (Op.constPower Exponent.one : Op κ).RegisteredIn tape.callbacks := trivial
      exact hreg.withSlot (Callbacks.grown_refl _) hone 0 _

/-- The output is no variable: a lone variable has a wrapper. -/
theorem Ends.length_lt_size
    (h : Ends root vs tape done tape')
    (hsize : tape.size = vs.length + done.length) :
    vs.length < tape'.size := by
  rw [h.size_eq]
  cases h with
  | computed hvar hlast =>
      rcases slotTerms_cases hlast with ⟨v, -, rfl⟩ | ⟨k, -, hk⟩
      · exact absurd (v.2.symm.trans hvar) (by decide)
      · have hlt := (List.getElem?_eq_some_iff.1 hk).1
        omega
  | wrapped hvar _ =>
      rw [wrappers, if_pos hvar]
      omega

theorem length_lt_size_of_ofTerm
    {l : Lowered κ α}
    (h : Tape.ofTerm g root vs = .ok l) :
    vs.length < l.tape.size := by
  rcases ofTerm_outcome root vs with ⟨l', hl, s, done, hfinished, hends⟩ | ⟨e, he, -⟩
  · obtain rfl := Except.ok.inj (h.symm.trans hl)
    have hsize := hfinished.progress.size
    rw [length_slotTerms] at hsize
    exact hends.length_lt_size hsize
  · rw [h] at he
    cases he

theorem size_pos_of_ofTerm
    {l : Lowered κ α}
    (h : Tape.ofTerm g root vs = .ok l) :
    0 < l.tape.size :=
  Nat.zero_lt_of_lt (length_lt_size_of_ofTerm h)

/-- The slots after the variables are as many as the distinct terms below the root that are not
variables. -/
theorem Finished.length_done
    (h : Finished root vs s done) :
    done.length = (g.computedBelow root).card := by
  have hset : done.toFinset = g.computedBelow root := by
    ext t
    rw [List.mem_toFinset]
    constructor
    · exact h.progress.below t
    · intro ht
      obtain ⟨hreach, hvar⟩ := Graph.mem_computedBelow.1 ht
      rcases List.mem_append.1 (h.mem_slotTerms hreach) with hmem | hmem
      · obtain ⟨v, -, rfl⟩ := List.mem_map.1 hmem
        exact absurd (v.2.symm.trans hvar) (by decide)
      · exact hmem
  rw [← hset, List.toFinset_card_of_nodup h.progress.nodup]

/-- The number of slots of the tape of a term. -/
theorem size_of_ofTerm
    {l : Lowered κ α}
    (h : Tape.ofTerm g root vs = .ok l) :
    l.tape.size = vs.length + (g.computedBelow root).card + g.wrappers root := by
  rcases ofTerm_outcome root vs with ⟨l', hl, s, done, hfinished, hends⟩ | ⟨e, he, -⟩
  · obtain rfl := Except.ok.inj (h.symm.trans hl)
    rw [hends.size_eq, hfinished.progress.size, length_slotTerms, hfinished.length_done]
  · rw [h] at he
    cases he

/-- Over a list that has its variables, a term has a tape as long as there are indices enough. -/
theorem exists_ofTerm
    (hcovers : Covers vs root)
    (hfits : vs.length + (g.computedBelow root).card + g.wrappers root ≤ indexLimit) :
    ∃ l, Tape.ofTerm g root vs = .ok l := by
  rcases ofTerm_outcome root vs with ⟨l, hl, -⟩ | ⟨e, -, hrefused⟩
  · exact ⟨l, hl⟩
  · cases hrefused with
    | duplicate hrepeat => exact absurd hcovers.1 hrepeat.not_nodup
    | unbound _ hmissing => exact absurd hcovers hmissing.not_covers
    | tooLong hlong => omega

/-- Otherwise the tape gets too long. -/
theorem ofTerm_eq_tapeTooLong
    (hcovers : Covers vs root)
    (hlong : indexLimit < vs.length + (g.computedBelow root).card + g.wrappers root) :
    Tape.ofTerm g root vs = .error (.fault .tapeTooLong) := by
  rcases ofTerm_outcome root vs with ⟨l, hl, -⟩ | ⟨e, he, hrefused⟩
  · have hsize := size_of_ofTerm hl
    have hle := Tape.size_le_of_built (Tape.built_ofTerm hl)
    omega
  · rw [he]
    cases hrefused with
    | duplicate hrepeat => exact absurd hcovers.1 hrepeat.not_nodup
    | unbound _ hmissing => exact absurd hcovers hmissing.not_covers
    | tooLong _ => rfl

/-- The functions that the tape of a term calls are registered. -/
theorem handlesRegistered_of_ofTerm
    {l : Lowered κ α}
    (h : Tape.ofTerm g root vs = .ok l) :
    l.tape.HandlesRegistered := by
  rcases ofTerm_outcome root vs with ⟨l', hl, s, done, hfinished, hends⟩ | ⟨e, he, -⟩
  · obtain rfl := Except.ok.inj (h.symm.trans hl)
    exact hends.same.2.2 hfinished.progress.registered
  · rw [h] at he
    cases he

/-- A term that calls no functions has a tape without functions. -/
theorem callbacks_of_ofTerm
    {l : Lowered κ α}
    (hofTerm : Tape.ofTerm g root vs = .ok l)
    (hcalls : ∀ t, g.Reaches root t → (g.node t).callsFunction = false) :
    l.tape.callbacks = {} := by
  rcases ofTerm_outcome root vs with ⟨l', hl, s, done, h, hends⟩ | ⟨e, he, -⟩
  · obtain rfl := Except.ok.inj (hofTerm.symm.trans hl)
    have hnone := h.progress.uncalled fun t ht =>
      hcalls t (Graph.mem_computedBelow.1 (h.progress.below t ht)).1
    obtain ⟨tape, hits⟩ := l
    cases hends with
    | computed _ _ => exact hnone
    | wrapped _ _ => exact hnone
  · rw [hofTerm] at he
    cases he

/-- The edges of a tape are the operands of its terms, and that of a wrapper. -/
theorem Finished.size_edges_le
    (h : Finished root vs s done)
    (hends : Ends root vs s.tape done tape') :
    tape'.edges.size ≤
      (∑ t ∈ g.computedBelow root, (g.operands t).length) + g.wrappers root := by
  have harity := sum_arity_le h.progress.nodup h.progress.below
  rw [hends.size_edges_eq, h.progress.edges]
  omega

/-- The tape of a term with fewer than 2 ^ 32 edges represents it. -/
theorem Finished.represents
    {l : Lowered κ α}
    (h : Finished root vs s done)
    (hends : Ends root vs s.tape done l.tape)
    (hofTerm : Tape.ofTerm g root vs = .ok l)
    (hedges : (∑ t ∈ g.computedBelow root, (g.operands t).length) + g.wrappers root <
      UInt32.size) :
    Represents root vs l.tape done := by
  have hP := h.progress
  have hlayout : Layout vs s.tape done := hP.layout (by omega)
  have hcap := Nat.lt_of_le_of_lt (h.size_edges_le hends) hedges
  obtain ⟨tape', hits⟩ := l
  change Ends root vs s.tape done tape' at hends
  cases hends with
  | computed _ hroot => exact .of_ofTerm hofTerm hcap hlayout (.computed hP.size hroot)
  | wrapped hvar hroot =>
      rename_i i
      refine .of_ofTerm hofTerm hcap ?_ ?_
      · exact hlayout.grow (c := s.tape.callbacks) hP.sound (Callbacks.grown_refl _)
      · refine .wrapped (by rw [Tape.size_withSlot, hP.size]) (i := i)
          (s := ⟨.constPower Exponent.one, 0, 0, Window.ofNat s.tape.edges.size 1⟩) ?_ rfl ?_ hroot
        · rw [Tape.size_withSlot, Tape.slots_withSlot, Nat.add_sub_cancel]
          exact Array.getElem?_push_size
        · rw [Tape.size_edges_withSlot] at hcap
          exact Tape.sourcesIn_withSlot_self _ _ hcap

/-- A term that fits has a tape, whose last slot is the term. -/
theorem ofTerm_spec
    (hl : g.Lowerable root vs) :
    ∃ l done, Tape.ofTerm g root vs = .ok l ∧ Represents root vs l.tape done := by
  rcases ofTerm_outcome root vs with ⟨l, hofTerm, s, done, h, hends⟩ | ⟨e, -, hrefused⟩
  · exact ⟨l, done, hofTerm, h.represents hends hofTerm hl.edges_fit⟩
  · exact absurd hrefused hl.not_refusal

end Output

end Graph
end ReverseMode
