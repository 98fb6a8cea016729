import ReverseMode.Tape.Sweep

/-!
# The storage of a tape

A tape is a plan with storage.  The plan is what building it fixes: dimension, functions,
operations, windows, edge sources and constants.  The storage is what sweeps overwrite:
values, adjoints and weights.

**Views.**  `value` and `adjoint` read the slots as total functions, 0 where there is no slot;
`sourcesIn` and `weightsIn` read a window of the edge table.

**Writes.**  Each write of a sweep has one lemma for every view that it changes and one for
every view that it leaves alone.
-/

namespace ReverseMode

section Tables

variable {β γ : Type}

/-- Modifying an entry is not seen through a view that the modification keeps. -/
theorem map_modify_eq
    (xs : Array β) (i : Nat) (f : β → β) (g : β → γ)
    (h : ∀ x, xs[i]? = some x → g (f x) = g x) :
    (xs.modify i f).map g = xs.map g := by
  apply Array.ext_getElem?
  intro j
  rw [Array.getElem?_map, Array.getElem?_map, Array.getElem?_modify]
  split
  · rename_i hij
    subst hij
    cases hx : xs[i]? with
    | none => rfl
    | some x => simp [h x hx]
  · rfl

variable (write : β → γ → γ)

@[simp] theorem size_foldl_modify
    (xs : List (β × Nat)) (table : Array γ) :
    (xs.foldl (fun a x => a.modify x.2 (write x.1)) table).size = table.size := by
  induction xs generalizing table with
  | nil => rfl
  | cons x xs ih => simp [ih]

/-- Writing a list to consecutive entries leaves the entries before it alone. -/
theorem getElem?_foldl_modify_lt
    (xs : List β) (k : Nat) (table : Array γ) (i : Nat)
    (h : i < k) :
    ((xs.zipIdx k).foldl (fun a x => a.modify x.2 (write x.1)) table)[i]? = table[i]? := by
  induction xs generalizing k table with
  | nil => rfl
  | cons x xs ih =>
      rw [List.zipIdx_cons, List.foldl_cons, ih (k + 1) _ (by omega)]
      rw [Array.getElem?_modify, if_neg (by omega)]

/-- Writing a list to consecutive entries leaves the entries after it alone. -/
theorem getElem?_foldl_modify_ge
    (xs : List β) (k : Nat) (table : Array γ) (i : Nat)
    (h : k + xs.length ≤ i) :
    ((xs.zipIdx k).foldl (fun a x => a.modify x.2 (write x.1)) table)[i]? = table[i]? := by
  induction xs generalizing k table with
  | nil => rfl
  | cons x xs ih =>
      rw [List.length_cons] at h
      rw [List.zipIdx_cons, List.foldl_cons, ih (k + 1) _ (by omega)]
      rw [Array.getElem?_modify, if_neg (by omega)]

/-- The entry that the `j`-th of a list is written to. -/
theorem getElem?_foldl_modify_add
    (xs : List β) (k : Nat) (table : Array γ) (j : Nat) {x : β}
    (h : xs[j]? = some x) :
    ((xs.zipIdx k).foldl (fun a x => a.modify x.2 (write x.1)) table)[k + j]? =
      table[k + j]?.map (write x) := by
  induction xs generalizing k table j with
  | nil => simp at h
  | cons y xs ih =>
      rw [List.zipIdx_cons, List.foldl_cons]
      cases j with
      | zero =>
          obtain rfl : y = x := by simpa using h
          rw [getElem?_foldl_modify_lt write xs (k + 1) _ (k + 0) (by omega)]
          rw [Array.getElem?_modify, if_pos (by omega)]
      | succ j =>
          have hk : k + (j + 1) = k + 1 + j := by omega
          rw [hk, ih (k + 1) _ j (by simpa using h)]
          rw [Array.getElem?_modify, if_neg (by omega)]

/-- A table of a program is overwritten as a table of a tape is modified. -/
theorem setIfInBounds_eq_modify
    (xs : Array β) (i : Nat) (b : β) :
    xs.setIfInBounds i b = xs.modify i fun _ => b := by
  apply Array.ext_getElem?
  intro j
  rw [Array.getElem?_setIfInBounds, Array.getElem?_modify]
  split
  · rename_i hij
    subst hij
    split
    · simp [*]
    · simp [*]
  · rfl

end Tables

namespace Tape

variable {κ α : Type}

section Windows

/-- The edges that a window shows. -/
def edgeList (t : Tape κ α) (w : Window) : List (Edge α) :=
  (t.edges.extract w.start w.stop).toList

/-- The slots that the edges of a window name. -/
def sourcesIn (t : Tape κ α) (w : Window) : List Nat :=
  (t.edgeList w).map (·.source)

/-- The weights that the edges of a window hold. -/
def weightsIn (t : Tape κ α) (w : Window) : List α :=
  (t.edgeList w).map (·.weight)

theorem start_le_stop (w : Window) : w.start ≤ w.stop := by
  exact Nat.le_add_right _ _

theorem getElem?_edgeList (t : Tape κ α) (w : Window) (k : Nat) :
    (t.edgeList w)[k]? = if k < w.stop - w.start then t.edges[w.start + k]? else none := by
  rw [edgeList, Array.getElem?_toList, Array.getElem?_extract]
  by_cases hk : k < w.stop - w.start
  · rw [if_pos hk]
    split
    · rfl
    · symm
      rw [Array.getElem?_eq_none]
      omega
  · rw [if_neg hk, if_neg (by omega)]

theorem length_edgeList
    {t : Tape κ α} {w : Window}
    (h : w.stop ≤ t.edges.size) :
    (t.edgeList w).length = w.stop - w.start := by
  rw [edgeList, Array.length_toList, Array.size_extract]
  omega

theorem length_sourcesIn
    {t : Tape κ α} {w : Window}
    (h : w.stop ≤ t.edges.size) :
    (t.sourcesIn w).length = w.stop - w.start := by
  rw [sourcesIn, List.length_map, length_edgeList h]

end Windows

section Views

variable [Zero α]

/-- The value that a slot holds. -/
def value (t : Tape κ α) (i : Nat) : α :=
  (t.slots[i]?.map (·.value)).getD 0

/-- The adjoint that a slot holds. -/
def adjoint (t : Tape κ α) (i : Nat) : α :=
  (t.slots[i]?.map (·.adjoint)).getD 0

theorem value_of_slot
    {t : Tape κ α} {i : Nat} {s : Slot κ α}
    (h : t.slots[i]? = some s) :
    t.value i = s.value := by
  simp [value, h]

theorem adjoint_of_slot
    {t : Tape κ α} {i : Nat} {s : Slot κ α}
    (h : t.slots[i]? = some s) :
    t.adjoint i = s.adjoint := by
  simp [adjoint, h]

end Views

section Reads

theorem exists_slot
    {t : Tape κ α} {i : Nat}
    (h : i < t.size) :
    ∃ s, t.slots[i]? = some s :=
  ⟨_, Array.getElem?_eq_getElem h⟩

theorem lt_size_of_slot
    {t : Tape κ α} {i : Nat} {s : Slot κ α}
    (h : t.slots[i]? = some s) :
    i < t.size :=
  (Array.getElem?_eq_some_iff.1 h).1

theorem slot_eq_ok
    {t : Tape κ α} {i : Nat} {s : Slot κ α}
    (h : t.slots[i]? = some s) :
    t.slot i = .ok s := by
  simp [slot, h]

theorem slot_eq_ok_iff
    {t : Tape κ α} {i : Nat} {s : Slot κ α} :
    t.slot i = .ok s ↔ t.slots[i]? = some s := by
  cases hs : t.slots[i]? <;> simp [slot, hs]

theorem slot_eq_error
    {t : Tape κ α} {i : Nat}
    (h : t.slots[i]? = none) :
    t.slot i = .error .outOfBounds := by
  simp [slot, h]

theorem unaryFn_eq_ok_iff
    {t : Tape κ α} {h : Nat} {f : UnaryFn α} :
    t.unaryFn h = .ok f ↔ t.callbacks.unary[h]? = some f := by
  cases hf : t.callbacks.unary[h]? <;> simp [unaryFn, hf]

theorem binaryFn_eq_ok_iff
    {t : Tape κ α} {h : Nat} {f : BinaryFn α} :
    t.binaryFn h = .ok f ↔ t.callbacks.binary[h]? = some f := by
  cases hf : t.callbacks.binary[h]? <;> simp [binaryFn, hf]

theorem naryFn_eq_ok_iff
    {t : Tape κ α} {h : Nat} {f : NaryFn α} :
    t.naryFn h = .ok f ↔ t.callbacks.nary[h]? = some f := by
  cases hf : t.callbacks.nary[h]? <;> simp [naryFn, hf]

theorem edgesIn_eq_ok
    {t : Tape κ α} {w : Window}
    (h : w.stop ≤ t.edges.size) :
    t.edgesIn w = .ok (t.edgeList w) :=
  if_pos h

theorem inputs_eq_ok
    {t : Tape κ α} {i : Nat} {s : Slot κ α}
    (hs : t.slots[i]? = some s)
    (hw : s.inputs.stop ≤ t.edges.size) :
    t.inputs i = .ok (t.edgeList s.inputs) := by
  simp [inputs, slot_eq_ok hs, edgesIn_eq_ok hw, bind, Except.bind]

variable [Zero α]

theorem valueAt_eq (t : Tape κ α) (i : Nat) :
    t.valueAt i = if i < t.size then .ok (t.value i) else .error .outOfBounds := by
  unfold valueAt size
  cases h : t.slots[i]? with
  | none =>
      have hi := Array.getElem?_eq_none_iff.1 h
      rw [slot_eq_error h, if_neg (by omega)]
      rfl
  | some s =>
      have hi := (Array.getElem?_eq_some_iff.1 h).1
      rw [slot_eq_ok h, if_pos hi, value_of_slot h]
      rfl

theorem outputValue_eq
    {t : Tape κ α}
    (h : 0 < t.size) :
    t.outputValue = .ok (t.value (t.size - 1)) := by
  have hne : t.isEmpty = false := by
    simpa [isEmpty, size, Array.size_pos_iff] using h
  simp only [outputValue, outputIndex, hne, bind, Except.bind, valueAt_eq]
  rw [if_neg (by simp)]
  exact if_pos (by omega)

end Reads

section Values

variable (t : Tape κ α)

@[simp] theorem edges_setValue (i : Nat) (v : α) : (t.setValue i v).edges = t.edges := by
  rfl

@[simp] theorem size_setPoint (point : List α) : (t.setPoint point).size = t.size := by
  exact size_foldl_modify (fun (x : α) (s : Slot κ α) => { s with value := x }) _ _

@[simp] theorem edges_setPoint (point : List α) : (t.setPoint point).edges = t.edges := by
  rfl

theorem slots_setPoint_lt
    {point : List α} {i : Nat} {x : α}
    (h : point[i]? = some x) :
    (t.setPoint point).slots[i]? = t.slots[i]?.map fun s => { s with value := x } := by
  have := getElem?_foldl_modify_add (fun (x : α) (s : Slot κ α) =>
    { s with value := x }) point 0 t.slots i h
  simpa [setPoint] using this

theorem slots_setPoint_ge
    {point : List α} {i : Nat}
    (h : point.length ≤ i) :
    (t.setPoint point).slots[i]? = t.slots[i]? := by
  exact getElem?_foldl_modify_ge (fun (x : α) (s : Slot κ α) =>
    { s with value := x }) point 0 t.slots i (by omega)

variable [Scalar κ α]

theorem value_setValue_self
    {i : Nat} (v : α)
    (h : i < t.size) :
    (t.setValue i v).value i = v := by
  rw [size] at h
  rw [value, setValue, Array.getElem?_modify, if_pos rfl]
  simp [h]

theorem value_setValue_ne
    {i j : Nat} (v : α)
    (h : i ≠ j) :
    (t.setValue i v).value j = t.value j := by
  simp [value, setValue, Array.getElem?_modify, h]

@[simp] theorem adjoint_setValue (i j : Nat) (v : α) :
    (t.setValue i v).adjoint j = t.adjoint j := by
  simp only [adjoint, setValue, Array.getElem?_modify]
  split <;> simp [Option.map_map, Function.comp_def]

theorem value_setPoint_lt
    {point : List α} {i : Nat} {x : α}
    (h : point[i]? = some x)
    (hi : i < t.size) :
    (t.setPoint point).value i = x := by
  rw [size] at hi
  simp [value, slots_setPoint_lt t h, hi]

@[simp] theorem adjoint_setPoint (point : List α) (i : Nat) :
    (t.setPoint point).adjoint i = t.adjoint i := by
  by_cases h : i < point.length
  · rw [adjoint, slots_setPoint_lt t (List.getElem?_eq_getElem h)]
    simp [adjoint, Option.map_map, Function.comp_def]
  · rw [adjoint, slots_setPoint_ge t (by omega)]
    rfl

end Values

section Weights

variable (t : Tape κ α)

@[simp] theorem slots_setWeights (start : Nat) (ws : List α) :
    (t.setWeights start ws).slots = t.slots := by
  induction ws generalizing t start with
  | nil => rfl
  | cons w ws ih => rw [setWeights, ih]

/-- Writing weights one after another is one pass over the edge table. -/
theorem edges_setWeights (start : Nat) (ws : List α) :
    (t.setWeights start ws).edges =
      (ws.zipIdx start).foldl (fun es x => es.modify x.2 fun e => { e with weight := x.1 })
        t.edges := by
  induction ws generalizing t start with
  | nil => rfl
  | cons w ws ih => rw [setWeights, ih, List.zipIdx_cons, List.foldl_cons]

/-- Writing weights leaves the edges before and after them alone. -/
theorem getElem?_edges_setWeights
    {start p : Nat} {ws : List α}
    (h : p < start ∨ start + ws.length ≤ p) :
    (t.setWeights start ws).edges[p]? = t.edges[p]? := by
  rw [edges_setWeights]
  rcases h with h | h
  · exact getElem?_foldl_modify_lt (fun (w : α) (e : Edge α) => { e with weight := w }) ws start
      t.edges p h
  · exact getElem?_foldl_modify_ge (fun (w : α) (e : Edge α) => { e with weight := w }) ws start
      t.edges p h

/-- The edge that the `k`-th of some weights is written to. -/
theorem getElem?_edges_setWeights_add
    {k : Nat} {ws : List α} {w : α}
    (start : Nat)
    (h : ws[k]? = some w) :
    (t.setWeights start ws).edges[start + k]? =
      t.edges[start + k]?.map fun e => { e with weight := w } := by
  rw [edges_setWeights]
  exact getElem?_foldl_modify_add (fun (w : α) (e : Edge α) => { e with weight := w }) ws start
    t.edges k h

/-- Writing partials is writing weights to the window of the slot and then its value. -/
theorem setPartials_eq
    {i : Nat} {s : Slot κ α}
    (hs : t.slots[i]? = some s)
    (computed : α × List α) :
    t.setPartials i computed = (t.setWeights s.inputs.start computed.2).setValue i computed.1 := by
  simp [setPartials, hs]

theorem edges_setPartials
    {i : Nat} {s : Slot κ α}
    (hs : t.slots[i]? = some s)
    (computed : α × List α) :
    (t.setPartials i computed).edges = (t.setWeights s.inputs.start computed.2).edges := by
  rw [setPartials_eq t hs, edges_setValue]

variable [Scalar κ α]

@[simp] theorem value_setWeights (start i : Nat) (ws : List α) :
    (t.setWeights start ws).value i = t.value i := by
  rw [value, slots_setWeights, value]

@[simp] theorem adjoint_setWeights (start i : Nat) (ws : List α) :
    (t.setWeights start ws).adjoint i = t.adjoint i := by
  rw [adjoint, slots_setWeights, adjoint]

theorem value_setPartials_self
    {i : Nat} {s : Slot κ α}
    (hs : t.slots[i]? = some s)
    (computed : α × List α) :
    (t.setPartials i computed).value i = computed.1 := by
  rw [setPartials_eq t hs]
  apply value_setValue_self
  rw [size, slots_setWeights]
  exact lt_size_of_slot hs

theorem value_setPartials_ne
    {i j : Nat}
    (computed : α × List α)
    (h : i ≠ j) :
    (t.setPartials i computed).value j = t.value j := by
  rw [setPartials, value_setValue_ne _ _ h, value_setWeights]

end Weights

section Adjoints

variable [Scalar κ α] (t : Tape κ α)

@[simp] theorem edges_addAdjoints (amounts : List (Nat × α)) :
    (t.addAdjoints amounts).edges = t.edges := by
  rfl

/-- What a list of amounts adds to a slot, in the order of the list. -/
theorem slots_addAdjoints (amounts : List (Nat × α)) (i : Nat) :
    (t.addAdjoints amounts).slots[i]? = t.slots[i]?.map fun s =>
      { s with
        adjoint := (amounts.filterMap fun a => if a.1 = i then some a.2 else none).foldl
          (· + ·) s.adjoint } := by
  unfold addAdjoints
  generalize t.slots = slots
  induction amounts generalizing slots with
  | nil => simp
  | cons a amounts ih =>
      rw [List.foldl_cons, ih, Array.getElem?_modify, List.filterMap_cons]
      split
      · simp [Option.map_map, Function.comp_def]
      · rfl

@[simp] theorem value_addAdjoints (amounts : List (Nat × α)) (i : Nat) :
    (t.addAdjoints amounts).value i = t.value i := by
  rw [value, slots_addAdjoints]
  simp [value, Option.map_map, Function.comp_def]

theorem adjoint_addAdjoints
    (amounts : List (Nat × α)) {i : Nat}
    (h : i < t.size) :
    (t.addAdjoints amounts).adjoint i =
      (amounts.filterMap fun a => if a.1 = i then some a.2 else none).foldl (· + ·)
        (t.adjoint i) := by
  rw [size] at h
  rw [adjoint, slots_addAdjoints, adjoint, Array.getElem?_eq_getElem h]
  rfl

@[simp] theorem size_seed : t.seed.size = t.size := by
  simp [size, seed]

theorem slots_seed (i : Nat) :
    t.seed.slots[i]? = t.slots[i]?.map fun s =>
      { s with adjoint := if i = t.size - 1 then 1 else 0 } := by
  rw [seed, Array.getElem?_modify, Array.getElem?_map, size]
  split
  · rename_i h
    simp [h, Option.map_map, Function.comp_def]
  · rename_i h
    simp [Ne.symm h]

@[simp] theorem value_seed (i : Nat) : t.seed.value i = t.value i := by
  rw [value, slots_seed]
  simp [value, Option.map_map, Function.comp_def]

theorem adjoint_seed
    {i : Nat}
    (h : i < t.size) :
    t.seed.adjoint i = if i = t.size - 1 then 1 else 0 := by
  rw [size] at h
  rw [adjoint, slots_seed, Array.getElem?_eq_getElem h]
  rfl

end Adjoints
end Tape
end ReverseMode
