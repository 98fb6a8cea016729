import ReverseMode.Proofs.Tape.Construction

/-!
# What the slots of a built tape read

**Input.**  Any sequence of calls that append a slot or register a function.  A call that is
refused leaves the tape as it was.

**Argument.**  An accepted call appends its sources to the edge table and leaves the edges before
them alone.  So the table lists the sources of all accepted calls one after another, and the window
of a slot starts where the table ended before (`Records`).  Offset and length of the window are cut
to 32 bits.

**Results.**
* `inputs_build_eq`: what any slot reads, with offset and length cut to 32 bits.
* `inputs_build`: a slot reads the sources that it was pushed over, as long as offset and length
  fit, and goes on to do so.
* `inputs_build_wraps`: they need not fit.  The number of slots is checked when one is appended,
  but that of edges is not.
-/

namespace ReverseMode

namespace Tape

variable {κ α : Type}
variable {t : Tape κ α} {calls : List (BuildCall κ α)}

section Calls

variable [Scalar κ α]

/-- The calls of a sequence that are accepted. -/
def accepted (t : Tape κ α) : List (BuildCall κ α) → List (BuildCall κ α)
  | [] => []
  | call :: calls =>
      match t.perform call with
      | .ok r => call :: r.2.accepted calls
      | .error _ => t.accepted calls

/-- The sources of the slots that the accepted ones of a sequence of calls append. -/
def sourceLists (t : Tape κ α) (calls : List (BuildCall κ α)) : List (List Nat) :=
  (t.accepted calls).filterMap BuildCall.sources?

theorem build_append (t : Tape κ α) (calls more : List (BuildCall κ α)) :
    t.build (calls ++ more) = (t.build calls).build more :=
  List.foldl_append

theorem accepted_append (t : Tape κ α) (calls more : List (BuildCall κ α)) :
    t.accepted (calls ++ more) = t.accepted calls ++ (t.build calls).accepted more := by
  induction calls generalizing t with
  | nil => rfl
  | cons call calls ih =>
      rw [List.cons_append, accepted, accepted, build_cons, grow]
      cases h : t.perform call with
      | error f => exact ih t
      | ok r => exact congrArg (call :: ·) (ih r.2)

end Calls

section Tables

/-- The edge table shows the sources of all slots one after another, and each slot has the window
at which its own start. -/
structure Records (t : Tape κ α) (lists : List (List Nat)) : Prop where
  size : t.size = lists.length
  sources : (t.edges.toList.map fun e => e.source) = lists.flatten
  window : ∀ k sources, lists[k]? = some sources → ∃ s, t.slots[k]? = some s ∧
    s.inputs = Window.ofNat (lists.take k).flatten.length sources.length

variable {lists : List (List Nat)} {sources : List Nat} {k : Nat}

theorem records_empty : ({} : Tape κ α).Records [] := by
  constructor
  · rfl
  · rfl
  · intro k sources h
    cases h

variable [Scalar κ α]

/-- A new slot has its window after all others. -/
theorem Records.withSlot
    (h : t.Records lists)
    (d : Nat) (op : Op κ) (v : α) (sources : List Nat) :
    ({ t with dimension := d }.withSlot op v sources).Records (lists ++ [sources]) := by
  have hedges : t.edges.size = lists.flatten.length := by
    rw [← h.sources, List.length_map, Array.length_toList]
  constructor
  · rw [size_withSlot, List.length_append, ← h.size]
    rfl
  · rw [edges_withSlot, Array.toList_append, List.map_append]
    show (t.edges.toList.map fun e => e.source) ++ _ = _
    rw [h.sources, List.flatten_append]
    simp [newEdges, Function.comp_def]
  · intro k list hk
    rw [slots_withSlot, Array.getElem?_push]
    show ∃ s, (if k = t.size then some _ else t.slots[k]?) = some s ∧ _
    rw [List.getElem?_append] at hk
    split at hk
    · rename_i hlt
      have hne : k ≠ t.size := by
        rw [h.size]
        omega
      rw [if_neg hne, List.take_append_of_le_length (by omega)]
      exact h.window k list hk
    · rename_i hle
      have hlast := (List.getElem?_eq_some_iff.1 hk).1
      rw [List.length_singleton] at hlast
      obtain rfl : k = lists.length := by omega
      obtain rfl : sources = list := by simpa using hk
      rw [if_pos h.size.symm, List.take_left]
      exact ⟨_, rfl, congrArg (Window.ofNat · _) hedges⟩

theorem Records.perform
    {call : BuildCall κ α} {r : Nat × Tape κ α}
    (h : t.Records lists)
    (hr : t.perform call = .ok r) :
    r.2.Records (lists ++ call.sources?.toList) := by
  rcases perform_cases hr with ⟨d, op, v, sources, -, hsources, htape⟩ | ⟨-, hnone, c, htape⟩
  · rw [hsources, htape]
    exact h.withSlot d op v sources
  · rw [hnone, htape, Option.toList_none, List.append_nil]
    exact ⟨h.size, h.sources, h.window⟩

/-- What is recorded after a sequence of calls. -/
theorem Records.build
    (h : t.Records lists)
    (calls : List (BuildCall κ α)) :
    (t.build calls).Records (lists ++ t.sourceLists calls) := by
  induction calls generalizing t lists with
  | nil => exact (List.append_nil lists).symm ▸ h
  | cons call calls ih =>
      rw [build_cons, grow, sourceLists, accepted]
      cases hr : t.perform call with
      | error f => exact ih h
      | ok r =>
          have hrest := ih (h.perform hr)
          rw [sourceLists, List.append_assoc] at hrest
          have hlists : (call :: r.2.accepted calls).filterMap BuildCall.sources? =
              call.sources?.toList ++ (r.2.accepted calls).filterMap BuildCall.sources? := by
            rw [List.filterMap_cons]
            cases call.sources? <;> rfl
          exact hlists ▸ hrest

theorem records_build (calls : List (BuildCall κ α)) :
    (build {} calls).Records (sourceLists {} calls) :=
  records_empty.build calls

/-- A list lies between what comes before it and what comes after it. -/
theorem flatten_of_getElem?
    (h : lists[k]? = some sources) :
    lists.flatten = (lists.take k).flatten ++ (sources ++ (lists.drop (k + 1)).flatten) := by
  obtain ⟨hlt, rfl⟩ := List.getElem?_eq_some_iff.1 h
  rw [← List.flatten_cons, ← List.flatten_append, List.getElem_cons_drop, List.take_append_drop]

omit [Scalar κ α] in
/-- What a slot reads is what the edge table shows in a window whose offset and length are cut to
32 bits. -/
theorem Records.inputs_eq
    (h : t.Records lists)
    (hk : lists[k]? = some sources) :
    (t.inputs k).map (List.map fun e => e.source) =
      .ok ((lists.flatten.drop ((lists.take k).flatten.length % UInt32.size)).take
        (sources.length % UInt32.size)) := by
  obtain ⟨s, hs, hwindow⟩ := h.window k sources hk
  have hedges := congrArg List.length h.sources
  rw [flatten_of_getElem? hk, List.length_map, Array.length_toList, List.length_append,
    List.length_append] at hedges
  have hstop := stop_ofNat_le (lists.take k).flatten.length sources.length
  rw [inputs_eq_ok hs (by rw [hwindow]; omega), hwindow, edgeList, Array.toList_extract,
    List.extract_eq_take_drop, length_ofNat, start_ofNat]
  show Except.ok _ = _
  rw [List.map_take, List.map_drop, h.sources]

end Tables

section Keeping

variable [Scalar κ α]

/-- An accepted call leaves what the slots read as it was. -/
theorem inputs_of_perform
    {call : BuildCall κ α} {r : Nat × Tape κ α} {k : Nat}
    (ht : t.Sound)
    (h : t.perform call = .ok r)
    (hk : k < t.size) :
    r.2.inputs k = t.inputs k := by
  obtain ⟨s, hs⟩ := exists_slot hk
  have hstop := (ht.slot hs).window
  rcases perform_cases h with ⟨d, op, v, sources, -, -, htape⟩ | ⟨-, -, c, htape⟩
  · have hedges := edges_withSlot { t with dimension := d } op v sources
    have hs' : ({ t with dimension := d }.withSlot op v sources).slots[k]? = some s := by
      have hne : k ≠ t.slots.size := Nat.ne_of_lt hk
      rw [slots_withSlot, Array.getElem?_push, if_neg hne]
      exact hs
    have hstop' : s.inputs.stop ≤
        ({ t with dimension := d }.withSlot op v sources).edges.size := by
      rw [hedges, Array.size_append]
      exact Nat.le_add_right_of_le hstop
    rw [htape, inputs_eq_ok hs hstop, inputs_eq_ok hs' hstop',
      edgeList_of_edges_eq_append hedges hstop]
    rfl
  · rw [htape]
    rfl

/-- No sequence of calls changes what the slots read that were there before it. -/
theorem inputs_build_of_lt
    {k : Nat}
    (ht : t.Sound)
    (hk : k < t.size)
    (more : List (BuildCall κ α)) :
    (t.build more).inputs k = t.inputs k := by
  induction more generalizing t with
  | nil => rfl
  | cons call calls ih =>
      rw [build_cons, grow]
      cases hr : t.perform call with
      | error f => exact ih ht hk
      | ok r =>
          have hsize : t.size ≤ r.2.size := by
            rcases perform_cases hr with ⟨d, op, v, sources, -, -, htape⟩ | ⟨-, -, c, htape⟩
            · rw [htape, size_withSlot]
              exact Nat.le_succ _
            · rw [htape]
              rfl
          have hrest := ih (ht.buildStep (buildStep_of_perform hr)) (Nat.lt_of_lt_of_le hk hsize)
          exact hrest.trans (inputs_of_perform ht hr hk)

end Keeping

section Results

variable [Scalar κ α]

/-- What the slots of a built tape read. -/
theorem inputs_build_eq
    {k : Nat} {sources : List Nat}
    (hk : (sourceLists {} calls)[k]? = some sources) :
    ((build {} calls).inputs k).map (List.map fun e => e.source) =
      .ok (((sourceLists {} calls).flatten.drop
        (((sourceLists {} calls).take k).flatten.length % UInt32.size)).take
          (sources.length % UInt32.size)) :=
  (records_build calls).inputs_eq hk

/-- A slot reads the sources that it was pushed over, in order, where there are 32-bit words for the
number of edges before it and for the number of its own.  Whatever it reads, no later call changes
that. -/
theorem inputs_build (calls : List (BuildCall κ α)) :
    (build {} calls).size = (sourceLists {} calls).length ∧
    ∀ (k : Nat) (sources : List Nat), (sourceLists {} calls)[k]? = some sources →
      (((sourceLists {} calls).take k).flatten.length < UInt32.size →
        sources.length < UInt32.size →
          ((build {} calls).inputs k).map (List.map fun e => e.source) = .ok sources) ∧
      ∀ more, (build {} (calls ++ more)).inputs k = (build {} calls).inputs k := by
  have hrecords := records_build calls
  refine ⟨hrecords.size, fun k sources hk => ⟨fun hoffset hlength => ?_, fun more => ?_⟩⟩
  · rw [inputs_build_eq hk, Nat.mod_eq_of_lt hoffset, Nat.mod_eq_of_lt hlength,
      flatten_of_getElem? hk, List.drop_left, List.take_left]
  · have hlt := (List.getElem?_eq_some_iff.1 hk).1
    rw [← hrecords.size] at hlt
    rw [build_append]
    exact inputs_build_of_lt (sound_empty.built (built_build {} calls)) hlt more

/-- A sum with a repeated operand after a product and a refused call. -/
theorem inputs_build_repeated :
    let calls : List (BuildCall Nat Int) :=
      [.pushInput, .pushConst 3, .pushOp .product [0, 1], .pushOp .exp [7],
        .pushOp .sum [2, 0, 2]]
    sourceLists {} calls = [[], [], [0, 1], [2, 0, 2]] ∧
      ((build {} calls).inputs 3).map (List.map fun e => e.source) = .ok [2, 0, 2] := by
  intro calls
  have hlists : sourceLists {} calls = [[], [], [0, 1], [2, 0, 2]] := by decide
  have hread := ((inputs_build calls).2 3 [2, 0, 2] (by rw [hlists]; rfl)).1
    (by rw [hlists]; decide) (by decide)
  exact ⟨hlists, hread⟩

end Results

section Wrapping

/-- A variable, and then `n` times the double of the last slot. -/
def doublings (n : Nat) : List (BuildCall Nat Int) :=
  .pushInput :: (List.range n).map fun i => .pushOp .sum [i, i]

theorem doublings_succ (n : Nat) :
    doublings (n + 1) = doublings n ++ [.pushOp .sum [n, n]] := by
  rw [doublings, List.range_succ, List.map_append]
  rfl

/-- All calls are accepted, as long as there is an index for each slot. -/
theorem accepted_doublings
    {n : Nat}
    (hn : n < indexLimit) :
    accepted {} (doublings n) = doublings n := by
  induction n with
  | zero => rfl
  | succ n ih =>
      have hprefix := ih (by omega)
      have hsize : (build {} (doublings n)).size = n + 1 := by
        rw [(records_build _).size, sourceLists, hprefix]
        simp [doublings, BuildCall.sources?, List.filterMap_map, Function.comp_def]
      have hpush : (build {} (doublings n)).perform (.pushOp .sum [n, n]) =
          .ok (n + 1, (build {} (doublings n)).withSlot .sum 0 [n, n]) := by
        rw [perform, pushOp_of_pushable rfl (by simp [hsize]), pushSlot_of_lt (by omega), hsize]
      rw [doublings_succ, accepted_append, hprefix, accepted, hpush]
      rfl

theorem sourceLists_doublings
    {n : Nat}
    (hn : n < indexLimit) :
    sourceLists {} (doublings n) = [] :: (List.range n).map fun i => [i, i] := by
  rw [sourceLists, accepted_doublings hn]
  simp [doublings, BuildCall.sources?, List.filterMap_map, Function.comp_def]

/-- Before the slot at `n + 1` there are `2 * n` edges, of which the first two name the variable.
Where their number is cut to 0, the slot reads these. -/
theorem inputs_doublings
    {n : Nat}
    (hn : n + 1 < indexLimit)
    (hwrap : 2 * n % UInt32.size = 0) :
    accepted {} (doublings (n + 1)) = doublings (n + 1) ∧
      (sourceLists {} (doublings (n + 1)))[n + 1]? = some [n, n] ∧
      ((build {} (doublings (n + 1))).inputs (n + 1)).map (List.map fun e => e.source) =
        .ok [0, 0] := by
  have hlast : (sourceLists {} (doublings (n + 1)))[n + 1]? = some [n, n] := by
    rw [sourceLists_doublings hn]
    simp
  have hoffset : ((sourceLists {} (doublings (n + 1))).take (n + 1)).flatten.length = 2 * n := by
    rw [sourceLists_doublings hn]
    simp [List.length_flatten, Function.comp_def]
    omega
  refine ⟨accepted_doublings hn, hlast, ?_⟩
  rw [inputs_build_eq hlast, hoffset, hwrap, sourceLists_doublings hn, List.range_succ_eq_map]
  rfl

/-- After 2 ^ 32 accepted edges, the slot that doubles slot 2 ^ 31 reads the variable. -/
theorem inputs_build_wraps :
    accepted {} (doublings (2147483648 + 1)) = doublings (2147483648 + 1) ∧
      (sourceLists {} (doublings (2147483648 + 1)))[2147483648 + 1]? =
        some [2147483648, 2147483648] ∧
      ((build {} (doublings (2147483648 + 1))).inputs (2147483648 + 1)).map
        (List.map fun e => e.source) = .ok [0, 0] :=
  inputs_doublings (by decide) (by decide)

end Wrapping
end Tape
end ReverseMode
