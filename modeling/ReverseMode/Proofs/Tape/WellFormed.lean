import ReverseMode.Proofs.Tape.Reachable

/-!
# The shape that building gives a tape

**Argument.**  Every accepted building step appends the window of its slot to the windows before
it, with as many edges as the operation takes.  `Regular` says this of a whole tape; it holds as
long as there is a 32-bit offset for each edge.

**Results.**
* `tilesFrom_iff`: the check of a tape's shape, as a property of its chain of windows and of each
  slot by itself.
* `Regular.flatMap_sourcesIn`: the slots of a regular tape read the sources of its edges in order.
* `Regular.built`: what building makes is regular.
* `isWellFormed_iff`: of the shape of a sound and regular tape, nothing is left to check but that
  some slot is not a variable and that exponents are valid.
* `isWellFormed_of_fresh_eq`: no sweep changes whether a tape has that shape.
* `Reachable.regular`: every tape that a caller can come to hold is regular while it has fewer than
  2 ^ 32 edges.
-/

namespace ReverseMode
namespace Tape

variable {κ α : Type}
variable {t u : Tape κ α}

section Chains

/-- The windows of the slots follow one another without a gap, from `first` to `last`. -/
def Chained : List (Slot κ α) → Nat → Nat → Prop
  | [], first, last => first = last
  | s :: rest, first, last => s.inputs.start = first ∧ Chained rest s.inputs.stop last

/-- A chain goes on with a window that starts where the chain ends. -/
theorem Chained.concat
    {slots : List (Slot κ α)} {first last : Nat} {s : Slot κ α}
    (h : Chained slots first last)
    (hs : s.inputs.start = last) :
    Chained (slots ++ [s]) first s.inputs.stop := by
  induction slots generalizing first with
  | nil => exact ⟨hs.trans h.symm, rfl⟩
  | cons r rest ih =>
      obtain ⟨hr, hrest⟩ := h
      exact ⟨hr, ih hrest⟩

/-- Every edge that a chain passes lies in one of its windows. -/
theorem Chained.exists_window
    {slots : List (Slot κ α)} {first last p : Nat}
    (h : Chained slots first last)
    (hp : first ≤ p)
    (hlt : p < last) :
    ∃ (k : Nat) (s : Slot κ α), slots[k]? = some s ∧ s.inputs.start ≤ p ∧ p < s.inputs.stop := by
  induction slots generalizing first with
  | nil =>
      rw [Chained] at h
      omega
  | cons r rest ih =>
      obtain ⟨hr, hrest⟩ := h
      by_cases hstop : p < r.inputs.stop
      · exact ⟨0, r, rfl, by omega, hstop⟩
      · obtain ⟨k, s, hs, hin⟩ := ih hrest (by omega)
        exact ⟨k + 1, s, by simpa using hs, hin⟩

theorem Chained.le
    {slots : List (Slot κ α)} {first last : Nat}
    (h : Chained slots first last) :
    first ≤ last := by
  induction slots generalizing first with
  | nil => exact Nat.le_of_eq h
  | cons s rest ih =>
      obtain ⟨hstart, hrest⟩ := h
      have hle := start_le_stop s.inputs
      have hstop := ih hrest
      omega

/-- Windows that are chained show the edges from the first to the last. -/
theorem Chained.flatMap_edgeList
    {slots : List (Slot κ α)} {first last : Nat}
    (h : Chained slots first last) :
    (slots.flatMap fun s => t.edgeList s.inputs) = (t.edges.extract first last).toList := by
  induction slots generalizing first with
  | nil =>
      obtain rfl : first = last := h
      simp
  | cons s rest ih =>
      obtain ⟨rfl, hrest⟩ := h
      have hle := start_le_stop s.inputs
      rw [List.flatMap_cons, ih hrest, edgeList, ← Array.toList_append,
        Array.extract_append_extract, Nat.min_eq_left hle, Nat.max_eq_right hrest.le]

variable [Scalar κ α]

theorem chained_map_fresh
    {slots : List (Slot κ α)} {first last : Nat} :
    Chained (slots.map Slot.fresh) first last ↔ Chained slots first last := by
  induction slots generalizing first with
  | nil => rfl
  | cons s rest ih => exact and_congr_right fun _ => ih

variable [Exponent κ]

omit [Scalar κ α] in
/-- Slots have the shape of a tape when their windows are chained through the edge table and each
of them may stand at its place. -/
theorem tilesFrom_iff
    {slots : List (Slot κ α)} {i offset : Nat} :
    t.tilesFrom slots i offset = true ↔ Chained slots offset t.edges.size ∧
      ∀ k s, slots[k]? = some s → t.slotWellFormed (i + k) s.inputs.start s = true := by
  induction slots generalizing i offset with
  | nil => simp [tilesFrom, Chained]
  | cons r rest ih =>
      rw [tilesFrom_cons, ih, Chained]
      constructor
      · rintro ⟨hr, hchain, hrest⟩
        have hstart := (slotWellFormed_iff.1 hr).2.1
        refine ⟨⟨hstart, hchain⟩, ?_⟩
        intro k s hs
        cases k with
        | zero =>
            obtain rfl : r = s := by simpa using hs
            rwa [hstart]
        | succ k =>
            have hk := hrest k s (by simpa using hs)
            rwa [Nat.add_right_comm, Nat.add_assoc] at hk
      · rintro ⟨⟨hstart, hchain⟩, hall⟩
        refine ⟨hstart ▸ hall 0 r rfl, hchain, ?_⟩
        intro k s hs
        have hk := hall (k + 1) s (by simpa using hs)
        rwa [← Nat.add_assoc, Nat.add_right_comm] at hk

end Chains

section Building

/-- The windows of all slots are chained through the edge table, and every operation has as many
edges as it takes. -/
structure Regular (t : Tape κ α) : Prop where
  chained : Chained t.slots.toList 0 t.edges.size
  accepts : ∀ s ∈ t.slots, s.op.accepts (s.inputs.stop - s.inputs.start) = true

/-- The slots of a regular tape read the sources of its edges. -/
theorem Regular.flatMap_sourcesIn
    (h : t.Regular) :
    (t.slots.toList.flatMap fun s => t.sourcesIn s.inputs) =
      t.edges.toList.map fun e => e.source := by
  have hedges := h.chained.flatMap_edgeList (t := t)
  rw [Array.extract_size] at hedges
  rw [← hedges, List.map_flatMap]
  rfl

theorem regular_empty : ({} : Tape κ α).Regular := by
  exact ⟨rfl, by simp⟩

variable [Scalar κ α]

/-- A regular tape stays so when it grows, as long as there is an offset for each edge. -/
theorem Regular.withSlot
    {op : Op κ} {sources : List Nat}
    (ht : t.Regular)
    (d : Nat) (v : α)
    (hcap : t.edges.size + sources.length < UInt32.size)
    (haccepts : op.accepts sources.length = true) :
    ({ t with dimension := d }.withSlot op v sources).Regular := by
  have hlength := length_ofNat t.edges.size sources.length
  have hstart := start_ofNat t.edges.size sources.length
  have hle := start_le_stop (Window.ofNat t.edges.size sources.length)
  rw [Nat.mod_eq_of_lt (by omega)] at hlength hstart
  constructor
  · rw [slots_withSlot, Array.toList_push, size_edges_withSlot]
    have hstop : (Window.ofNat t.edges.size sources.length).stop =
        t.edges.size + sources.length := by omega
    show Chained _ 0 (t.edges.size + sources.length)
    rw [← hstop]
    exact ht.chained.concat hstart
  · intro s hs
    rw [slots_withSlot] at hs
    rcases Array.mem_push.1 hs with hs | rfl
    · exact ht.accepts s hs
    · rwa [hlength]

theorem Regular.buildStep
    (ht : t.edges.size < UInt32.size → t.Regular)
    (h : BuildStep t u)
    (hcap : u.edges.size < UInt32.size) :
    u.Regular := by
  obtain ⟨d, op, v, sources, hslot, rfl⟩ | ⟨c, rfl⟩ := h.cases
  · rw [size_edges_withSlot] at hcap
    exact (ht (Nat.lt_of_le_of_lt (Nat.le_add_right _ _) hcap)).withSlot d v hcap hslot.accepts
  · exact ⟨(ht hcap).chained, (ht hcap).accepts⟩

/-- What building makes of nothing is regular while it has fewer than 2 ^ 32 edges. -/
theorem Regular.built
    (h : Built {} t) :
    t.edges.size < UInt32.size → t.Regular := by
  induction h with
  | refl => exact fun _ => regular_empty
  | tail _ hstep ih => exact Regular.buildStep ih hstep

end Building

variable [Exponent κ]

section Shape

/-- A sound and regular tape has the shape of a tape if some slot is not a variable and all
exponents are valid. -/
theorem isWellFormed_iff
    (ht : t.Sound)
    (hr : t.Regular) :
    t.isWellFormed = true ↔
      t.dimension < t.size ∧ ∀ s ∈ t.slots, s.op.exponentValid = true := by
  have hslot : ∀ k s, t.slots.toList[k]? = some s →
      (t.slotWellFormed (0 + k) s.inputs.start s = true ↔ s.op.exponentValid = true) := by
    intro k s hs
    rw [Array.getElem?_toList] at hs
    have hsound := ht.slot hs
    rw [Nat.zero_add, slotWellFormed_iff]
    constructor
    · exact fun h => h.1
    · intro hvalid
      exact ⟨hvalid, rfl, hsound.window, hsound.input_iff,
        hr.accepts s (Array.mem_of_getElem? hs), hsound.earlier⟩
  rw [isWellFormed, Bool.and_eq_true, decide_eq_true_eq, tilesFrom_iff]
  refine and_congr_right fun _ => ?_
  constructor
  · rintro ⟨-, hall⟩ s hs
    obtain ⟨k, hk⟩ := Array.mem_iff_getElem?.1 hs
    rw [← Array.getElem?_toList] at hk
    exact (hslot k s hk).1 (hall k s hk)
  · intro hvalid
    refine ⟨hr.chained, ?_⟩
    intro k s hs
    refine (hslot k s hs).2 (hvalid s ?_)
    exact Array.mem_toList_iff.1 (List.mem_of_getElem? hs)

end Shape

section Plans

variable [Scalar κ α]

theorem slotWellFormed_fresh (t : Tape κ α) (i offset : Nat) (s : Slot κ α) :
    t.fresh.slotWellFormed i offset s.fresh = t.slotWellFormed i offset s := by
  have hplan := fresh_fresh t
  rw [Bool.eq_iff_iff, slotWellFormed_iff, slotWellFormed_iff, sourcesIn_of_fresh_eq hplan,
    size_edges_of_fresh_eq hplan]
  rfl

theorem tilesFrom_fresh (t : Tape κ α) (slots : List (Slot κ α)) (i offset : Nat) :
    t.fresh.tilesFrom (slots.map Slot.fresh) i offset = t.tilesFrom slots i offset := by
  induction slots generalizing i offset with
  | nil => rw [List.map_nil, tilesFrom, tilesFrom, size_edges_of_fresh_eq (fresh_fresh t)]
  | cons s rest ih =>
      rw [List.map_cons, tilesFrom, tilesFrom, slotWellFormed_fresh]
      exact congrArg _ (ih _ _)

/-- The shape of a tape is a matter of its plan. -/
theorem isWellFormed_of_fresh_eq (h : t.fresh = u.fresh) : t.isWellFormed = u.isWellFormed := by
  have hshape : ∀ t : Tape κ α, t.fresh.isWellFormed = t.isWellFormed := by
    intro t
    have hslots : t.fresh.slots.toList = t.slots.toList.map Slot.fresh := Array.toList_map
    rw [isWellFormed, isWellFormed, size_of_fresh_eq (fresh_fresh t), hslots, tilesFrom_fresh]
    rfl
  rw [← hshape t, h, hshape u]

omit [Exponent κ] in
theorem Regular.of_fresh_eq
    (ht : t.Regular)
    (h : t.fresh = u.fresh) :
    u.Regular := by
  have hslots : t.slots.toList.map Slot.fresh = u.slots.toList.map Slot.fresh := by
    have hfresh := congrArg (fun t : Tape κ α => t.slots.toList) h
    simpa only [fresh, Array.toList_map] using hfresh
  constructor
  · rw [← chained_map_fresh, ← hslots, ← size_edges_of_fresh_eq h, chained_map_fresh]
    exact ht.chained
  · intro r hr
    obtain ⟨i, hi⟩ := Array.mem_iff_getElem?.1 hr
    obtain ⟨s, hs, hop, hin, -⟩ := slot_of_fresh_eq h.symm hi
    rw [← hop, ← hin]
    exact ht.accepts s (Array.mem_of_getElem? hs)

end Plans

section Reaching

theorem regular_of_isWellFormed
    (h : t.isWellFormed = true) :
    t.Regular := by
  rw [isWellFormed, Bool.and_eq_true, tilesFrom_iff] at h
  obtain ⟨-, hchain, hslots⟩ := h
  refine ⟨hchain, fun s hs => ?_⟩
  obtain ⟨i, hi⟩ := Array.mem_iff_getElem?.1 hs
  rw [← Array.getElem?_toList] at hi
  exact (slotWellFormed_iff.1 (hslots i s hi)).2.2.2.2.1

variable [Scalar κ α]

/-- A tape that a caller can come to hold is regular if it has fewer than 2 ^ 32 edges. -/
theorem Reachable.regular
    (h : t.Reachable)
    (hcap : t.edges.size < UInt32.size) :
    t.Regular := by
  revert hcap
  induction h with
  | empty => exact fun _ => regular_empty
  | ofTerm h => exact Regular.built (built_ofTerm h)
  | restored hw _ _ => exact fun _ => regular_of_isWellFormed hw
  | build _ hstep ih => exact Regular.buildStep ih hstep
  | call c ht ih =>
      have hfresh := (fresh_after ht.sound c).symm
      intro hcap
      rw [← size_edges_of_fresh_eq hfresh] at hcap
      exact (ih hcap).of_fresh_eq hfresh

end Reaching
end Tape
end ReverseMode
