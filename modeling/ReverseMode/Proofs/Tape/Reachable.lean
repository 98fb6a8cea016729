import ReverseMode.Proofs.Lowering.Loop
import ReverseMode.Proofs.Tape.Plan
import ReverseMode.Tape.Codec

/-!
# The tapes there are

`Tape.Reachable` are the tapes that a caller can come to hold: the empty tape, tapes made
from terms, tapes restored from data, and what becomes of them when they grow and are swept,
in any order and any number of times.

**Results.**
* `Reachable.sound`: all of them are sound, also those whose edge table has outgrown 32 bits.
* `Reachable.tiled`: the windows of one with less than 2 ^ 32 edges lie one after another.
* `reachable_of_decode`: what decoding accepts is restored.
-/

namespace ReverseMode
namespace Tape

variable {κ α : Type}

section Calls

variable [Exponent κ] [Scalar κ α]

/-- A call that sweeps a tape. -/
inductive Call (α : Type) where
  | forward (point : List α)
  | forwardWithWeights (point : List α)
  | reverse
  | evaluate (point : List α)
  | differentiate (point : List α) (room : Nat)

/-- The tape that a call leaves, whether it fails or not. -/
def after (t : Tape κ α) : Call α → Tape κ α
  | .forward point => (t.forward point).2
  | .forwardWithWeights point => (t.forwardWithWeights point).2
  | .reverse => t.reverse.2
  | .evaluate point => (t.evaluate point).2
  | .differentiate point room => (t.differentiate point room).2

/-- The tape that a sequence of calls leaves. -/
def run (t : Tape κ α) (calls : List (Call α)) : Tape κ α :=
  calls.foldl after t

theorem fresh_after
    {t : Tape κ α}
    (ht : t.Sound)
    (c : Call α) :
    (t.after c).fresh = t.fresh := by
  cases c with
  | forward point => exact fresh_forward ht point
  | forwardWithWeights point => exact fresh_forwardWithWeights ht point
  | reverse => exact fresh_reverse t
  | evaluate point => exact fresh_evaluate ht point
  | differentiate point room => exact fresh_differentiate ht point room

theorem fresh_run
    {t : Tape κ α}
    (ht : t.Sound)
    (calls : List (Call α)) :
    (t.run calls).fresh = t.fresh := by
  induction calls generalizing t with
  | nil => rfl
  | cons c calls ih =>
      have hc := fresh_after ht c
      exact (ih (ht.of_fresh_eq hc.symm)).trans hc

end Calls

/-- The tapes that a caller can come to hold. -/
inductive Reachable [Exponent κ] [Scalar κ α] : Tape κ α → Prop
  | empty : Reachable {}
  /-- A tape made from a term. -/
  | ofTerm {g : Graph κ α} {root : g.Term} {vs : List g.Variable} {l : Lowered κ α} :
      Tape.ofTerm g root vs = .ok l → Reachable l.tape
  /-- A tape restored from data: well formed and without functions. -/
  | restored {t : Tape κ α} :
      t.isWellFormed = true → t.callbackCount = 0 → t.callbacks = {} → Reachable t
  | build {t u : Tape κ α} :
      Reachable t → BuildStep t u → Reachable u
  | call {t : Tape κ α} (c : Call α) :
      Reachable t → Reachable (t.after c)

section Growing

theorem length_ofNat (offset length : Nat) :
    (Window.ofNat offset length).stop - (Window.ofNat offset length).start =
      length % UInt32.size := by
  simp [Window.ofNat, Window.start, Window.stop]

theorem start_ofNat (offset length : Nat) :
    (Window.ofNat offset length).start = offset % UInt32.size := by
  rfl

theorem stop_ofNat_le (offset length : Nat) :
    (Window.ofNat offset length).stop ≤ offset + length := by
  have ho := Nat.mod_le offset UInt32.size
  have hl := Nat.mod_le length UInt32.size
  exact Nat.add_le_add ho hl

/-- Windows that lie in the edge table show the same when edges are appended. -/
theorem edgeList_of_edges_eq_append
    {t u : Tape κ α} {new : Array (Edge α)} {w : Window}
    (he : u.edges = t.edges ++ new)
    (hw : w.stop ≤ t.edges.size) :
    u.edgeList w = t.edgeList w := by
  apply List.ext_getElem?
  intro k
  rw [getElem?_edgeList, getElem?_edgeList, he]
  split
  · rw [Array.getElem?_append_left (by omega)]
  · rfl

theorem sourcesIn_of_edges_eq_append
    {t u : Tape κ α} {new : Array (Edge α)} {w : Window}
    (he : u.edges = t.edges ++ new)
    (hw : w.stop ≤ t.edges.size) :
    u.sourcesIn w = t.sourcesIn w := by
  rw [sourcesIn, sourcesIn, edgeList_of_edges_eq_append he hw]

/-- The slots of a sound tape stay sound when edges are appended. -/
theorem slot_sound_of_edges_eq_append
    {t u : Tape κ α} {new : Array (Edge α)} {i : Nat} {s : Slot κ α}
    (hs : s.Sound t i)
    (he : u.edges = t.edges ++ new)
    (hd : i < t.dimension ↔ i < u.dimension) :
    s.Sound u i := by
  constructor
  · exact hs.input_iff.trans hd
  · rw [he, Array.size_append]
    exact Nat.le_add_right_of_le hs.window
  · rw [sourcesIn_of_edges_eq_append he hs.window]
    exact hs.earlier
  · rw [sourcesIn_of_edges_eq_append he hs.window]
    exact hs.arity

variable [Scalar κ α]

/-- The edges of a new slot. -/
def newEdges (sources : List Nat) : Array (Edge α) :=
  (sources.map fun source => ({ source, weight := 0 } : Edge α)).toArray

theorem slots_withSlot (t : Tape κ α) (op : Op κ) (v : α) (sources : List Nat) :
    (t.withSlot op v sources).slots = t.slots.push
      { op, value := v, adjoint := 0, inputs := Window.ofNat t.edges.size sources.length } := by
  rfl

theorem edges_withSlot (t : Tape κ α) (op : Op κ) (v : α) (sources : List Nat) :
    (t.withSlot op v sources).edges = t.edges ++ newEdges sources := by
  apply Array.ext'
  rw [withSlot, newEdges, Array.toList_append, Array.toList_appendList]

@[simp] theorem size_withSlot (t : Tape κ α) (op : Op κ) (v : α) (sources : List Nat) :
    (t.withSlot op v sources).size = t.size + 1 := by
  simp [withSlot, size]

@[simp] theorem size_edges_withSlot (t : Tape κ α) (op : Op κ) (v : α) (sources : List Nat) :
    (t.withSlot op v sources).edges.size = t.edges.size + sources.length := by
  rw [edges_withSlot, Array.size_append]
  simp [newEdges]

/-- An edge of the grown table is an old one or names one of the new sources. -/
theorem source_of_edges_withSlot
    {t : Tape κ α} {op : Op κ} {v : α} {sources : List Nat} {p : Nat} {e : Edge α}
    (he : (t.withSlot op v sources).edges[p]? = some e) :
    t.edges[p]? = some e ∨ e.source ∈ sources := by
  rw [edges_withSlot, Array.getElem?_append] at he
  split at he
  · exact .inl he
  · right
    rw [newEdges, List.getElem?_toArray, List.getElem?_map] at he
    obtain ⟨source, hsource, rfl⟩ := Option.map_eq_some_iff.1 he
    exact List.mem_of_getElem? hsource

/-- The window of a new slot shows nothing but new and earlier edges. -/
theorem mem_sourcesIn_withSlot
    {t : Tape κ α} (op : Op κ) (v : α) {sources : List Nat} {w : Window} {j n : Nat}
    (hedges : ∀ {p : Nat} {e : Edge α}, t.edges[p]? = some e → e.source < n)
    (hsources : ∀ j ∈ sources, j < n)
    (hj : j ∈ (t.withSlot op v sources).sourcesIn w) :
    j < n := by
  rw [sourcesIn, List.mem_map] at hj
  obtain ⟨e, he, rfl⟩ := hj
  obtain ⟨k, hk⟩ := List.mem_iff_getElem?.1 he
  rw [getElem?_edgeList] at hk
  split at hk
  · rcases source_of_edges_withSlot hk with hold | hnew
    · exact hedges hold
    · exact hsources e.source hnew
  · cases hk

/-- A sound tape stays sound when it grows by a slot that may stand at its end. -/
theorem Sound.withSlot
    {t : Tape κ α} {op : Op κ} {v : α} {sources : List Nat} {d : Nat}
    (ht : t.Sound)
    (hd : ∀ i < t.size, i < t.dimension ↔ i < d)
    (hdle : d ≤ t.size + 1)
    (hop : op.isInput = true ↔ t.size < d)
    (hsources : ∀ j ∈ sources, j < t.size)
    (harity : op.accepts sources.length = true) :
    ({ t with dimension := d }.withSlot op v sources).Sound := by
  constructor
  · rw [size_withSlot]
    exact hdle
  · intro p e he
    rw [size_withSlot]
    rcases source_of_edges_withSlot he with hold | hnew
    · exact Nat.lt_succ_of_lt (ht.edge_lt hold)
    · exact Nat.lt_succ_of_lt (hsources e.source hnew)
  · intro i s hs
    rw [slots_withSlot, Array.getElem?_push] at hs
    split at hs
    · rename_i hi
      obtain rfl := Option.some.inj hs
      have hwin := stop_ofNat_le t.edges.size sources.length
      have hstop : (Window.ofNat t.edges.size sources.length).stop ≤
          ({ t with dimension := d }.withSlot op v sources).edges.size := by
        rw [size_edges_withSlot]
        exact hwin
      subst hi
      constructor
      · exact hop
      · exact hstop
      · intro j hj
        exact mem_sourcesIn_withSlot (t := { t with dimension := d }) op v ht.edge_lt hsources hj
      · intro n hn
        rw [length_sourcesIn hstop, length_ofNat, Op.eq_of_arity? harity hn]
        apply Nat.mod_eq_of_lt
        cases op <;> cases hn <;> decide
    · have hi := (Array.getElem?_eq_some_iff.1 hs).1
      exact slot_sound_of_edges_eq_append (ht.slot hs) (edges_withSlot _ op v sources) (hd i hi)

theorem Sound.buildStep
    {t u : Tape κ α}
    (ht : t.Sound)
    (h : BuildStep t u) :
    u.Sound := by
  obtain ⟨d, op, v, sources, hslot, rfl⟩ | ⟨c, rfl⟩ := h.cases
  · have hdim := ht.dimension_le
    have hd := hslot.dimension
    cases hop : op.isInput with
    | true =>
        have hfirst := hslot.first hop
        rw [hop, if_pos rfl] at hd
        apply ht.withSlot _ _ _ hslot.earlier hslot.accepts
        · omega
        · omega
        · simp only [hop, true_iff]
          omega
    | false =>
        rw [hop, if_neg (by simp)] at hd
        apply ht.withSlot _ _ _ hslot.earlier hslot.accepts
        · omega
        · omega
        · simp only [hop, Bool.false_eq_true, false_iff]
          omega
  · exact ⟨ht.dimension_le, ht.edge_lt, fun hs =>
      ⟨(ht.slot hs).1, (ht.slot hs).2, (ht.slot hs).3, (ht.slot hs).4⟩⟩

/-- The windows of a tape that grows stay one after another as long as the edge table has
less than 2 ^ 32 entries. -/
theorem Tiled.buildStep
    {t u : Tape κ α}
    (hs : t.Sound)
    (ht : t.edges.size < UInt32.size → t.Tiled)
    (h : BuildStep t u)
    (hcap : u.edges.size < UInt32.size) :
    u.Tiled := by
  obtain ⟨d, op, v, sources, -, rfl⟩ | ⟨c, rfl⟩ := h.cases
  · intro i j s r hij hi hj
    rw [size_edges_withSlot] at hcap
    have hold : t.edges.size < UInt32.size :=
      Nat.lt_of_le_of_lt (Nat.le_add_right _ sources.length) hcap
    rw [slots_withSlot, Array.getElem?_push] at hi hj
    split at hi
    · rename_i hsize
      rw [hsize] at hij
      rw [if_neg (by omega)] at hj
      have := (Array.getElem?_eq_some_iff.1 hj).1
      omega
    · split at hj
      · obtain rfl := Option.some.inj hj
        rw [start_ofNat, Nat.mod_eq_of_lt hold]
        exact (hs.slot hi).window
      · exact ht hold i j s r hij hi hj
  · exact ht hcap

end Growing

section Restored

variable [Exponent κ] {t : Tape κ α}

theorem slotWellFormed_iff
    {i offset : Nat} {s : Slot κ α} :
    t.slotWellFormed i offset s = true ↔
      s.op.exponentValid = true ∧ s.inputs.start = offset ∧ s.inputs.stop ≤ t.edges.size ∧
        (s.op.isInput = true ↔ i < t.dimension) ∧
        s.op.accepts (s.inputs.stop - s.inputs.start) = true ∧
        ∀ j ∈ t.sourcesIn s.inputs, j < i := by
  have hall : ((t.edges.extract s.inputs.start s.inputs.stop).all fun e => decide (e.source < i))
      = true ↔ ∀ j ∈ t.sourcesIn s.inputs, j < i := by
    rw [← Array.all_toList]
    simp only [sourcesIn, edgeList, List.all_eq_true, List.forall_mem_map, decide_eq_true_eq]
  have hinput : (decide (i < t.dimension) == s.op.isInput) = true ↔
      (s.op.isInput = true ↔ i < t.dimension) := by
    cases s.op.isInput <;> simp
  simp only [slotWellFormed, Bool.and_eq_true, hall, hinput, beq_iff_eq, decide_eq_true_eq]
  constructor
  · rintro ⟨⟨⟨⟨hexp, hstart, hstop⟩, hin⟩, hacc⟩, hsrc⟩
    exact ⟨hexp, hstart, hstop, hin, hacc, hsrc⟩
  · rintro ⟨hexp, hstart, hstop, hin, hacc, hsrc⟩
    exact ⟨⟨⟨⟨hexp, hstart, hstop⟩, hin⟩, hacc⟩, hsrc⟩

theorem tilesFrom_cons
    {s : Slot κ α} {rest : List (Slot κ α)} {i offset : Nat} :
    t.tilesFrom (s :: rest) i offset = true ↔
      t.slotWellFormed i offset s = true ∧ t.tilesFrom rest (i + 1) s.inputs.stop = true := by
  rw [tilesFrom, Bool.and_eq_true]

/-- Every slot of a well-formed table is well formed, at an offset not before the first. -/
theorem slotWellFormed_of_tilesFrom
    {slots : List (Slot κ α)} {i offset k : Nat} {s : Slot κ α}
    (h : t.tilesFrom slots i offset = true)
    (hs : slots[k]? = some s) :
    ∃ o, offset ≤ o ∧ t.slotWellFormed (i + k) o s = true := by
  induction slots generalizing i offset k with
  | nil => simp at hs
  | cons r rest ih =>
      obtain ⟨hr, hrest⟩ := tilesFrom_cons.1 h
      cases k with
      | zero =>
          obtain rfl : r = s := by simpa using hs
          exact ⟨offset, Nat.le_refl _, hr⟩
      | succ k =>
          obtain ⟨o, ho, hslot⟩ := ih hrest (by simpa using hs)
          have hstart := (slotWellFormed_iff.1 hr).2.1
          have hle := start_le_stop r.inputs
          refine ⟨o, by omega, ?_⟩
          rwa [show i + (k + 1) = i + 1 + k by omega]

/-- Every edge from `offset` on lies in a window of a well-formed table. -/
theorem exists_window_of_tilesFrom
    {slots : List (Slot κ α)} {i offset p : Nat}
    (h : t.tilesFrom slots i offset = true)
    (hp : offset ≤ p)
    (hlt : p < t.edges.size) :
    ∃ (k : Nat) (s : Slot κ α), slots[k]? = some s ∧ s.inputs.start ≤ p ∧ p < s.inputs.stop := by
  induction slots generalizing i offset with
  | nil =>
      simp only [tilesFrom, beq_iff_eq] at h
      omega
  | cons r rest ih =>
      obtain ⟨hr, hrest⟩ := tilesFrom_cons.1 h
      have hstart := (slotWellFormed_iff.1 hr).2.1
      by_cases hstop : p < r.inputs.stop
      · exact ⟨0, r, rfl, by omega, hstop⟩
      · obtain ⟨k, s, hs, hin⟩ := ih hrest (by omega)
        exact ⟨k + 1, s, by simpa using hs, hin⟩

theorem tiled_of_tilesFrom
    {slots : List (Slot κ α)} {i offset k l : Nat} {s r : Slot κ α}
    (h : t.tilesFrom slots i offset = true)
    (hkl : k < l)
    (hs : slots[k]? = some s)
    (hr : slots[l]? = some r) :
    s.inputs.stop ≤ r.inputs.start := by
  induction slots generalizing i offset k l with
  | nil => simp at hs
  | cons q rest ih =>
      obtain ⟨hq, hrest⟩ := tilesFrom_cons.1 h
      cases l with
      | zero => omega
      | succ l =>
          rw [List.getElem?_cons_succ] at hr
          cases k with
          | zero =>
              obtain rfl : q = s := by simpa using hs
              obtain ⟨o, ho, hslot⟩ := slotWellFormed_of_tilesFrom hrest hr
              rw [(slotWellFormed_iff.1 hslot).2.1]
              exact ho
          | succ k =>
              rw [List.getElem?_cons_succ] at hs
              exact ih hrest (by omega) hs hr

theorem tiled_of_isWellFormed
    (h : t.isWellFormed = true) :
    t.Tiled := by
  rw [isWellFormed, Bool.and_eq_true] at h
  intro i j s r hij hs hr
  rw [← Array.getElem?_toList] at hs hr
  exact tiled_of_tilesFrom h.2 hij hs hr

theorem sound_of_isWellFormed
    (h : t.isWellFormed = true) :
    t.Sound := by
  rw [isWellFormed, Bool.and_eq_true, decide_eq_true_eq] at h
  have hslot : ∀ {i : Nat} {s : Slot κ α}, t.slots[i]? = some s →
      ∃ o, t.slotWellFormed i o s = true := by
    intro i s hs
    rw [← Array.getElem?_toList] at hs
    obtain ⟨o, -, ho⟩ := slotWellFormed_of_tilesFrom h.2 hs
    rw [Nat.zero_add] at ho
    exact ⟨o, ho⟩
  constructor
  · exact Nat.le_of_lt h.1
  · intro p e he
    obtain ⟨hp, -⟩ := Array.getElem?_eq_some_iff.1 he
    obtain ⟨k, s, hs, hstart, hstop⟩ := exists_window_of_tilesFrom h.2 (Nat.zero_le p) hp
    rw [Array.getElem?_toList] at hs
    obtain ⟨o, ho⟩ := hslot hs
    have hk := (Array.getElem?_eq_some_iff.1 hs).1
    have hmem : e.source ∈ t.sourcesIn s.inputs := by
      refine List.mem_map.2 ⟨e, List.mem_iff_getElem?.2 ⟨p - s.inputs.start, ?_⟩, rfl⟩
      rw [getElem?_edgeList, if_pos (by omega), Nat.add_sub_cancel' hstart, he]
    have := (slotWellFormed_iff.1 ho).2.2.2.2.2 e.source hmem
    rw [size]
    omega
  · intro i s hs
    obtain ⟨o, ho⟩ := hslot hs
    obtain ⟨-, -, hstop, hin, hacc, hsrc⟩ := slotWellFormed_iff.1 ho
    refine ⟨hin, hstop, hsrc, fun n hn => ?_⟩
    rw [length_sourcesIn hstop]
    exact Op.eq_of_arity? hacc hn

end Restored

section Reachable

theorem sound_empty : ({} : Tape κ α).Sound := by
  constructor <;> simp [size]

variable [Scalar κ α]

theorem Sound.built
    {t u : Tape κ α}
    (ht : t.Sound)
    (h : Built t u) :
    u.Sound := by
  induction h with
  | refl => exact ht
  | tail _ hstep ih => exact ih.buildStep hstep

/-- There is an index for each slot that building makes. -/
theorem size_le_of_built
    {t : Tape κ α}
    (h : Built {} t) :
    t.size ≤ indexLimit := by
  induction h with
  | refl => exact Nat.zero_le _
  | tail _ hstep ih =>
      obtain ⟨d, op, v, sources, hslot, rfl⟩ | ⟨c, rfl⟩ := hstep.cases
      · rw [size_withSlot]
        exact hslot.size_lt
      · exact ih

/-- Building leaves all values 0 but those of constants, and all adjoints and weights 0. -/
theorem fresh_of_built
    {t : Tape κ α}
    (h : Built {} t) :
    (∀ s ∈ t.slots, s.fresh = s) ∧ ∀ e ∈ t.edges, e.fresh = e := by
  induction h with
  | refl => simp
  | tail _ hstep ih =>
      obtain ⟨hslots, hedges⟩ := ih
      obtain ⟨d, op, v, sources, hslot, rfl⟩ | ⟨c, rfl⟩ := hstep.cases
      · constructor
        · intro s hs
          rw [slots_withSlot] at hs
          rcases Array.mem_push.1 hs with hs | rfl
          · exact hslots s hs
          · simp only [Slot.fresh, hslot.stored]
        · intro e he
          rw [edges_withSlot, Array.mem_append] at he
          rcases he with he | he
          · exact hedges e he
          · rw [newEdges, List.mem_toArray] at he
            obtain ⟨source, -, rfl⟩ := List.mem_map.1 he
            rfl
      · exact ⟨hslots, hedges⟩

theorem Tiled.built
    {t u : Tape κ α}
    (hs : t.Sound)
    (ht : t.edges.size < UInt32.size → t.Tiled)
    (h : Built t u) :
    u.edges.size < UInt32.size → u.Tiled := by
  induction h with
  | refl => exact ht
  | tail hbuilt hstep ih => exact Tiled.buildStep (hs.built hbuilt) ih hstep

variable [Exponent κ]

theorem Reachable.run
    {t : Tape κ α}
    (h : t.Reachable)
    (calls : List (Call α)) :
    (t.run calls).Reachable := by
  induction calls generalizing t with
  | nil => exact h
  | cons c calls ih => exact ih (.call c h)

/-- Every tape that a caller can come to hold is sound. -/
theorem Reachable.sound
    {t : Tape κ α}
    (h : t.Reachable) :
    t.Sound := by
  induction h with
  | empty => exact sound_empty
  | ofTerm h => exact sound_empty.built (built_ofTerm h)
  | restored hw _ _ => exact sound_of_isWellFormed hw
  | build _ hstep ih => exact ih.buildStep hstep
  | call c _ ih => exact ih.of_fresh_eq (fresh_after ih c).symm

/-- The windows of a tape with less than 2 ^ 32 edges lie one after another. -/
theorem Reachable.tiled
    {t : Tape κ α}
    (h : t.Reachable)
    (hcap : t.edges.size < UInt32.size) :
    t.Tiled := by
  revert hcap
  induction h with
  | empty =>
      intro _ i j s r _ hs
      simp at hs
  | ofTerm h =>
      refine Tiled.built sound_empty ?_ (built_ofTerm h)
      intro _ i j s r _ hs
      simp at hs
  | restored hw _ _ =>
      intro _
      exact tiled_of_isWellFormed hw
  | build ht hstep ih => exact Tiled.buildStep ht.sound ih hstep
  | call c ht ih =>
      have hfresh := (fresh_after ht.sound c).symm
      intro hcap
      rw [← size_edges_of_fresh_eq hfresh] at hcap
      exact (ih hcap).of_fresh_eq hfresh

end Reachable

section Decoding

theorem callbacks_of_decodeShape
    {d : Data} {t : Tape Float Float}
    (h : decodeShape? d = some t) :
    t.callbacks = {} := by
  simp only [decodeShape?, Option.bind_eq_bind, Option.bind_eq_some_iff] at h
  obtain ⟨fields, -, h⟩ := h
  split at h
  · simp only [Option.bind_eq_some_iff, Option.pure_def, Option.some.injEq] at h
    obtain ⟨_, -, _, -, _, -, _, -, _, -, rfl⟩ := h
    rfl
  · cases h

/-- Decoding accepts the shape of a tape that calls no functions and is well formed. -/
theorem decode_eq_ok_iff_shape
    {d : Data} {t : Tape Float Float} :
    decode d = .ok t ↔ decodeShape? d = some t ∧ t.callbackCount = 0 ∧ t.isWellFormed = true := by
  rw [decode]
  cases hshape : decodeShape? d with
  | none => simp
  | some u =>
      simp only [Option.some_inj]
      by_cases hcount : u.callbackCount = 0
      · by_cases hw : u.isWellFormed = true
        · rw [if_neg (not_not.2 hcount), if_pos hw, Except.ok.injEq]
          constructor
          · rintro rfl
            exact ⟨rfl, hcount, hw⟩
          · exact fun h => h.1
        · rw [if_neg (not_not.2 hcount), if_neg hw]
          constructor
          · intro h
            cases h
          · rintro ⟨rfl, -, h⟩
            exact absurd h hw
      · rw [if_pos hcount]
        constructor
        · intro h
          cases h
        · rintro ⟨rfl, h, -⟩
          exact absurd h hcount

/-- What decoding accepts is well formed and calls no functions. -/
theorem restored_of_decode
    {d : Data} {t : Tape Float Float}
    (h : decode d = .ok t) :
    t.isWellFormed = true ∧ t.callbackCount = 0 ∧ t.callbacks = {} := by
  obtain ⟨hshape, hcount, hw⟩ := decode_eq_ok_iff_shape.1 h
  exact ⟨hw, hcount, callbacks_of_decodeShape hshape⟩

/-- What decoding accepts is a tape that a caller can come to hold. -/
theorem reachable_of_decode
    {d : Data} {t : Tape Float Float}
    (h : decode d = .ok t) :
    t.Reachable := by
  obtain ⟨hw, hcount, hnone⟩ := restored_of_decode h
  exact .restored hw hcount hnone

end Decoding
end Tape
end ReverseMode
