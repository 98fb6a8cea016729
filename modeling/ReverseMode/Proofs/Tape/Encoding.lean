import ReverseMode.Proofs.Tape.Reachable

/-!
# Tapes written and read back

**Input.**  A tape over binary64 in any state of its buffers, or any tree of data.

**Argument.**  Each writer has one lemma that says when the matching reader reads something from
what it wrote, and that this is what was written.  The lemma for a tape puts these together along
its two tables.  For the other direction each reader has a lemma that compares the tree it read with
the one written anew: data may give fields by position, in another order and beside others, and
reals as integers, so the trees need not be equal, but they agree in all that a tape is made of.

**Results.**
* `Sound.inWords`: a sound tape with an index for each slot consists of 32-bit words.
* `exists_encode_iff`: a tape is written unless functions are registered with it.
* `decode_eq_ok_iff`: what was written reads back where the tape is well formed, calls no functions
  and has finite numbers only, and then as the same tape.
* `encode_of_decode`: writing what was read gives data that agrees with the data that was read, and
  reads as the same tape.
-/

namespace ReverseMode

namespace Data

section Leaves

theorem word?_eq_some_iff
    {d : Data} {n : Nat} :
    d.word? = some n ↔ d = .int n ∧ n < UInt32.size := by
  constructor
  · intro h
    cases d with
    | int k =>
        rw [word?] at h
        split at h
        · rename_i hk
          obtain rfl := Option.some.inj h
          obtain ⟨n, rfl⟩ := Int.eq_ofNat_of_zero_le hk.1
          exact ⟨rfl, Int.ofNat_lt.1 hk.2⟩
        · cases h
    | _ => cases h
  · rintro ⟨rfl, hn⟩
    rw [word?, if_pos ⟨Int.natCast_nonneg n, Int.ofNat_lt.2 hn⟩, Int.toNat_natCast]

theorem isFinite_of_number?
    {d : Data} {x : Float}
    (h : d.number? = some x) :
    x.isFinite = true := by
  unfold number? at h
  exact (Option.filter_eq_some_iff.1 h).2

/-- A number that was written reads back if it is finite. -/
theorem number?_ofNumber
    {x y : Float} :
    (ofNumber x).number? = some y ↔ x.isFinite = true ∧ y = x := by
  rw [ofNumber]
  by_cases hx : x.isFinite = true
  · rw [if_pos hx, number?]
    constructor
    · intro h
      exact ⟨hx, (Option.some.inj (Option.filter_eq_some_iff.1 h).1).symm⟩
    · rintro ⟨-, rfl⟩
      exact Option.filter_eq_some_iff.2 ⟨rfl, hx⟩
  · rw [if_neg hx]
    constructor
    · intro h
      cases h
    · rintro ⟨h, -⟩
      exact absurd h hx

end Leaves

section Agreement

/-- Two trees read as the same word. -/
def SameWord (d d' : Data) : Prop :=
  ∃ n, d.word? = some n ∧ d'.word? = some n

/-- Two trees read as the same finite number. -/
def SameNumber (d d' : Data) : Prop :=
  ∃ x, d.number? = some x ∧ d'.number? = some x

/-- Two lists have one length and agree place by place, each place in a way of its own. -/
def AllAgree : List (Data → Data → Prop) → List Data → List Data → Prop
  | agree :: rest, x :: xs, y :: ys => agree x y ∧ AllAgree rest xs ys
  | [], [], [] => True
  | _, _, _ => False

/-- Two trees give the same fields, and these agree. -/
def FieldsAgree (fields : List (String × (Data → Data → Prop))) (d d' : Data) : Prop :=
  ∃ xs ys, d.fields? (fields.map (·.1)) = some xs ∧ d'.fields? (fields.map (·.1)) = some ys ∧
    AllAgree (fields.map (·.2)) xs ys

/-- Two trees are lists of one length that agree entry by entry. -/
def EntriesAgree (agree : Data → Data → Prop) (d d' : Data) : Prop :=
  ∃ xs ys, d.entries? = some xs ∧ d'.entries? = some ys ∧ List.Forall₂ agree xs ys

/-- A name with what stands beside it, which is nothing for a name alone. -/
def tag? : Data → Option (String × Data)
  | text name => some (name, null)
  | record [(name, d)] => some (name, d)
  | _ => none

/-- Two trees give the same name, with the same beside it or the same number. -/
def TagsAgree (d d' : Data) : Prop :=
  ∃ name x y, d.tag? = some (name, x) ∧ d'.tag? = some (name, y) ∧ (x = y ∨ SameNumber x y)

def WindowsAgree : Data → Data → Prop :=
  FieldsAgree [("offset", SameWord), ("len", SameWord)]

def SlotsAgree : Data → Data → Prop :=
  FieldsAgree
    [("op", TagsAgree), ("value", SameNumber), ("adjoint", SameNumber), ("inputs", WindowsAgree)]

def EdgesAgree : Data → Data → Prop :=
  FieldsAgree [("source", SameWord), ("weight", SameNumber)]

/-- Two trees give the same elements, edges and dimension. -/
def TapesAgree : Data → Data → Prop :=
  FieldsAgree
    [("elements", EntriesAgree SlotsAgree), ("edges", EntriesAgree EdgesAgree),
      ("dimension", SameWord)]

end Agreement
end Data

namespace Tape

open Data

section Defs

variable {κ α : Type}

/-- The dimension and the sources of edges are 32-bit words, as they are in storage. -/
structure InWords (t : Tape κ α) : Prop where
  dimension : t.dimension < UInt32.size
  source : ∀ e ∈ t.edges, e.source < UInt32.size

/-- All numbers of a tape are finite, those in its buffers and the exponents among them. -/
structure AllFinite (t : Tape Float Float) : Prop where
  exponent : ∀ s ∈ t.slots, ∀ k, s.op = .constPower k → k.isFinite = true
  value : ∀ s ∈ t.slots, s.value.isFinite = true
  adjoint : ∀ s ∈ t.slots, s.adjoint.isFinite = true
  weight : ∀ e ∈ t.edges, e.weight.isFinite = true

/-- The parameter of an operation can be read back: a finite exponent or a 32-bit handle. -/
def OpReadable : Op Float → Prop
  | .constPower k => k.isFinite = true
  | .unary h | .binary h | .nary h => h < UInt32.size
  | _ => True

def SlotReadable (s : Slot Float Float) : Prop :=
  OpReadable s.op ∧ s.value.isFinite = true ∧ s.adjoint.isFinite = true

def EdgeReadable (e : Edge Float) : Prop :=
  e.source < UInt32.size ∧ e.weight.isFinite = true

end Defs

section Readers

/-- A window is read from a tree that has its two fields. -/
theorem decodeWindow?_eq_some_iff
    {d : Data} {w : Window} :
    decodeWindow? d = some w ↔ ∃ offset length, d.fields? ["offset", "len"] = some [offset, length] ∧
      offset.word? = some w.offset.toNat ∧ length.word? = some w.length.toNat := by
  have hcut : ∀ {x : Data} {n : Nat}, x.word? = some n → n.toUInt32.toNat = n := by
    intro x n h
    exact UInt32.toNat_ofNat_of_lt' (word?_eq_some_iff.1 h).2
  unfold decodeWindow?
  rw [Option.bind_eq_bind, Option.bind_eq_some_iff]
  constructor
  · rintro ⟨fields, hfields, h⟩
    split at h
    · rename_i offset length
      simp only [Option.bind_eq_bind, Option.bind_eq_some_iff, Option.pure_def, Option.some_inj] at h
      obtain ⟨n, hn, m, hm, rfl⟩ := h
      refine ⟨offset, length, hfields, hn.trans ?_, hm.trans ?_⟩
      · exact congrArg some (hcut hn).symm
      · exact congrArg some (hcut hm).symm
    · cases h
  · rintro ⟨offset, length, hfields, hoffset, hlength⟩
    refine ⟨_, hfields, ?_⟩
    simp [hoffset, hlength, Window.ofNat]

/-- A slot is read from a tree that has its four fields. -/
theorem decodeSlot?_eq_some_iff
    {d : Data} {s : Slot Float Float} :
    decodeSlot? d = some s ↔ ∃ op value adjoint inputs,
      d.fields? ["op", "value", "adjoint", "inputs"] = some [op, value, adjoint, inputs] ∧
        decodeOp? op = some s.op ∧ value.number? = some s.value ∧
          adjoint.number? = some s.adjoint ∧ decodeWindow? inputs = some s.inputs := by
  unfold decodeSlot?
  rw [Option.bind_eq_bind, Option.bind_eq_some_iff]
  constructor
  · rintro ⟨fields, hfields, h⟩
    split at h
    · rename_i op value adjoint inputs
      simp only [Option.bind_eq_bind, Option.bind_eq_some_iff, Option.pure_def, Option.some_inj] at h
      obtain ⟨_, hop, _, hvalue, _, hadjoint, _, hinputs, rfl⟩ := h
      exact ⟨op, value, adjoint, inputs, hfields, hop, hvalue, hadjoint, hinputs⟩
    · cases h
  · rintro ⟨op, value, adjoint, inputs, hfields, hop, hvalue, hadjoint, hinputs⟩
    refine ⟨_, hfields, ?_⟩
    simp [hop, hvalue, hadjoint, hinputs]

/-- An edge is read from a tree that has its two fields. -/
theorem decodeEdge?_eq_some_iff
    {d : Data} {e : Edge Float} :
    decodeEdge? d = some e ↔ ∃ source weight, d.fields? ["source", "weight"] = some [source, weight] ∧
      source.word? = some e.source ∧ weight.number? = some e.weight := by
  unfold decodeEdge?
  rw [Option.bind_eq_bind, Option.bind_eq_some_iff]
  constructor
  · rintro ⟨fields, hfields, h⟩
    split at h
    · rename_i source weight
      simp only [Option.bind_eq_bind, Option.bind_eq_some_iff, Option.pure_def, Option.some_inj] at h
      obtain ⟨_, hsource, _, hweight, rfl⟩ := h
      exact ⟨source, weight, hfields, hsource, hweight⟩
    · cases h
  · rintro ⟨source, weight, hfields, hsource, hweight⟩
    refine ⟨_, hfields, ?_⟩
    simp [hsource, hweight]

/-- A tape without functions is read from a tree that has its two tables and its dimension. -/
theorem decodeShape?_eq_some_iff
    {d : Data} {t : Tape Float Float} :
    decodeShape? d = some t ↔ ∃ elements edges dimension xs ys,
      d.fields? ["elements", "edges", "dimension"] = some [elements, edges, dimension] ∧
        (elements.entries? = some xs ∧ xs.mapM decodeSlot? = some t.slots.toList) ∧
          (edges.entries? = some ys ∧ ys.mapM decodeEdge? = some t.edges.toList) ∧
            dimension.word? = some t.dimension ∧ t.callbacks = {} := by
  unfold decodeShape?
  rw [Option.bind_eq_bind, Option.bind_eq_some_iff]
  constructor
  · rintro ⟨fields, hfields, h⟩
    split at h
    · rename_i elements edges dimension
      simp only [Option.bind_eq_bind, Option.bind_eq_some_iff, Option.pure_def, Option.some_inj] at h
      obtain ⟨xs, hxs, slots, hslots, ys, hys, edgeList, hedges, n, hn, rfl⟩ := h
      exact ⟨elements, edges, dimension, xs, ys, hfields, ⟨hxs, hslots⟩, ⟨hys, hedges⟩, hn, rfl⟩
    · cases h
  · rintro ⟨elements, edges, dimension, xs, ys, hfields, ⟨hxs, hslots⟩, ⟨hys, hedges⟩, hn, hnone⟩
    refine ⟨_, hfields, ?_⟩
    obtain ⟨slots, edgeList, n, callbacks⟩ := t
    obtain rfl : callbacks = {} := hnone
    simp [hxs, hslots, hys, hedges, hn]

end Readers

section Written

theorem fields?_encodeWindow (w : Window) :
    (encodeWindow w).fields? ["offset", "len"] =
      some [encodeWord w.offset.toNat, encodeWord w.length.toNat] := by
  simp [encodeWindow, fields?, field?]

theorem fields?_encodeSlot (s : Slot Float Float) :
    (encodeSlot s).fields? ["op", "value", "adjoint", "inputs"] =
      some [encodeOp s.op, ofNumber s.value, ofNumber s.adjoint, encodeWindow s.inputs] := by
  simp [encodeSlot, fields?, field?]

theorem fields?_encodeEdge (e : Edge Float) :
    (encodeEdge e).fields? ["source", "weight"] =
      some [encodeWord e.source, ofNumber e.weight] := by
  simp [encodeEdge, fields?, field?]

theorem word?_encodeWord
    {n m : Nat} :
    (encodeWord n).word? = some m ↔ n < UInt32.size ∧ m = n := by
  rw [word?_eq_some_iff, encodeWord]
  constructor
  · rintro ⟨h, hm⟩
    obtain rfl := Int.ofNat_inj.1 (Data.int.inj h)
    exact ⟨hm, rfl⟩
  · rintro ⟨hn, rfl⟩
    exact ⟨rfl, hn⟩

theorem decodeOp?_encodeOp
    {op op' : Op Float} :
    decodeOp? (encodeOp op) = some op' ↔ OpReadable op ∧ op' = op := by
  have hplain : ∀ {o : Op Float}, some o = some op' ↔ True ∧ op' = o := by
    intro o
    rw [Option.some_inj, true_and, eq_comm]
  have hmap : ∀ {γ : Type} {f : γ → Op Float} {x : Option γ} {y : γ} {p : Prop},
      (∀ z, x = some z ↔ p ∧ z = y) → (x.map f = some op' ↔ p ∧ op' = f y) := by
    intro γ f x y p hx
    rw [Option.map_eq_some_iff]
    constructor
    · rintro ⟨z, hz, rfl⟩
      obtain ⟨hp, rfl⟩ := (hx z).1 hz
      exact ⟨hp, rfl⟩
    · rintro ⟨hp, rfl⟩
      exact ⟨y, (hx y).2 ⟨hp, rfl⟩, rfl⟩
  cases op with
  | constPower k =>
      rw [encodeOp, decodeOp?, taggedOp?]
      exact hmap fun _ => number?_ofNumber
  | unary h =>
      rw [encodeOp, decodeOp?, taggedOp?]
      exact hmap fun _ => word?_encodeWord
  | binary h =>
      rw [encodeOp, decodeOp?, taggedOp?]
      exact hmap fun _ => word?_encodeWord
  | nary h =>
      rw [encodeOp, decodeOp?, taggedOp?]
      exact hmap fun _ => word?_encodeWord
  | _ =>
      rw [encodeOp, decodeOp?, plainOp?]
      exact hplain

/-- Windows consist of words, so they read back always. -/
theorem decodeWindow?_encodeWindow
    {w w' : Window} :
    decodeWindow? (encodeWindow w) = some w' ↔ w' = w := by
  rw [decodeWindow?_eq_some_iff]
  simp only [fields?_encodeWindow, Option.some_inj, List.cons.injEq, and_true]
  constructor
  · rintro ⟨_, _, ⟨rfl, rfl⟩, hoffset, hlength⟩
    obtain ⟨offset, length⟩ := w'
    obtain rfl : offset = w.offset := UInt32.toNat_inj.1 (word?_encodeWord.1 hoffset).2
    obtain rfl : length = w.length := UInt32.toNat_inj.1 (word?_encodeWord.1 hlength).2
    rfl
  · rintro rfl
    exact ⟨_, _, ⟨rfl, rfl⟩, word?_encodeWord.2 ⟨w'.offset.toNat_lt_size, rfl⟩,
      word?_encodeWord.2 ⟨w'.length.toNat_lt_size, rfl⟩⟩

theorem decodeSlot?_encodeSlot
    {s s' : Slot Float Float} :
    decodeSlot? (encodeSlot s) = some s' ↔ SlotReadable s ∧ s' = s := by
  rw [decodeSlot?_eq_some_iff]
  simp only [fields?_encodeSlot, Option.some_inj, List.cons.injEq, and_true]
  constructor
  · rintro ⟨_, _, _, _, ⟨rfl, rfl, rfl, rfl⟩, hop, hvalue, hadjoint, hinputs⟩
    obtain ⟨hopReadable, hop⟩ := decodeOp?_encodeOp.1 hop
    obtain ⟨hvalueFinite, hvalue⟩ := number?_ofNumber.1 hvalue
    obtain ⟨hadjointFinite, hadjoint⟩ := number?_ofNumber.1 hadjoint
    obtain ⟨op, value, adjoint, inputs⟩ := s'
    refine ⟨⟨hopReadable, hvalueFinite, hadjointFinite⟩, ?_⟩
    obtain rfl : op = s.op := hop
    obtain rfl : value = s.value := hvalue
    obtain rfl : adjoint = s.adjoint := hadjoint
    obtain rfl : inputs = s.inputs := decodeWindow?_encodeWindow.1 hinputs
    rfl
  · rintro ⟨⟨hop, hvalue, hadjoint⟩, rfl⟩
    exact ⟨_, _, _, _, ⟨rfl, rfl, rfl, rfl⟩, decodeOp?_encodeOp.2 ⟨hop, rfl⟩,
      number?_ofNumber.2 ⟨hvalue, rfl⟩, number?_ofNumber.2 ⟨hadjoint, rfl⟩,
      decodeWindow?_encodeWindow.2 rfl⟩

theorem decodeEdge?_encodeEdge
    {e e' : Edge Float} :
    decodeEdge? (encodeEdge e) = some e' ↔ EdgeReadable e ∧ e' = e := by
  rw [decodeEdge?_eq_some_iff]
  simp only [fields?_encodeEdge, Option.some_inj, List.cons.injEq, and_true]
  constructor
  · rintro ⟨_, _, ⟨rfl, rfl⟩, hsource, hweight⟩
    obtain ⟨hsourceFits, hsource⟩ := word?_encodeWord.1 hsource
    obtain ⟨hweightFinite, hweight⟩ := number?_ofNumber.1 hweight
    obtain ⟨source, weight⟩ := e'
    refine ⟨⟨hsourceFits, hweightFinite⟩, ?_⟩
    obtain rfl : source = e.source := hsource
    obtain rfl : weight = e.weight := hweight
    rfl
  · rintro ⟨⟨hsource, hweight⟩, rfl⟩
    exact ⟨_, _, ⟨rfl, rfl⟩, word?_encodeWord.2 ⟨hsource, rfl⟩, number?_ofNumber.2 ⟨hweight, rfl⟩⟩

/-- A table reads back if all its entries do. -/
theorem mapM_map_eq_some_iff
    {β : Type} {read : Data → Option β} {write : β → Data} {readable : β → Prop}
    (h : ∀ x y, read (write x) = some y ↔ readable x ∧ y = x)
    (xs ys : List β) :
    (xs.map write).mapM read = some ys ↔ (∀ x ∈ xs, readable x) ∧ ys = xs := by
  induction xs generalizing ys with
  | nil => simp [eq_comm]
  | cons x xs ih =>
      simp only [List.map_cons, List.mapM_cons, Option.bind_eq_bind, Option.bind_eq_some_iff,
        Option.pure_def, h, ih, List.forall_mem_cons, Option.some_inj]
      constructor
      · rintro ⟨_, ⟨hx, rfl⟩, _, ⟨hxs, rfl⟩, rfl⟩
        exact ⟨⟨hx, hxs⟩, rfl⟩
      · rintro ⟨⟨hx, hxs⟩, rfl⟩
        exact ⟨_, ⟨hx, rfl⟩, _, ⟨hxs, rfl⟩, rfl⟩

/-- The tree that a tape without functions is written as. -/
def written (t : Tape Float Float) : Data :=
  .record
    [("elements", .list (t.slots.toList.map encodeSlot)),
      ("edges", .list (t.edges.toList.map encodeEdge)),
      ("dimension", encodeWord t.dimension)]

theorem fields?_written (t : Tape Float Float) :
    (written t).fields? ["elements", "edges", "dimension"] =
      some [.list (t.slots.toList.map encodeSlot), .list (t.edges.toList.map encodeEdge),
        encodeWord t.dimension] := by
  simp [written, fields?, field?]

theorem encode_eq_ok_iff
    {t : Tape Float Float} {d : Data} :
    encode t = .ok d ↔ t.hasCallbacks = false ∧ d = written t := by
  rw [encode]
  by_cases h : t.hasCallbacks = true
  · rw [if_pos h]
    simp [h]
  · rw [if_neg h, written, Except.ok.injEq, eq_comm, ← Bool.not_eq_true]
    exact (and_iff_right h).symm

/-- The two tables and the dimension read back where all their parts do. -/
theorem decodeShape?_written
    {t u : Tape Float Float} :
    decodeShape? (written t) = some u ↔
      ((∀ s ∈ t.slots, SlotReadable s) ∧ (∀ e ∈ t.edges, EdgeReadable e) ∧
        t.dimension < UInt32.size) ∧ u = { t with callbacks := {} } := by
  have hslots := mapM_map_eq_some_iff (fun _ _ => decodeSlot?_encodeSlot) t.slots.toList
  have hedges := mapM_map_eq_some_iff (fun _ _ => decodeEdge?_encodeEdge) t.edges.toList
  simp only [Array.mem_toList_iff] at hslots hedges
  rw [decodeShape?_eq_some_iff]
  simp only [fields?_written, Option.some_inj, List.cons.injEq, and_true]
  constructor
  · rintro ⟨_, _, _, xs, ys, ⟨rfl, rfl, rfl⟩, ⟨hxs, hslotsRead⟩, ⟨hys, hedgesRead⟩, hdim, hnone⟩
    obtain rfl := Option.some.inj hxs
    obtain rfl := Option.some.inj hys
    obtain ⟨hslotsReadable, hslots⟩ := (hslots _).1 hslotsRead
    obtain ⟨hedgesReadable, hedges⟩ := (hedges _).1 hedgesRead
    obtain ⟨hword, hdim⟩ := word?_encodeWord.1 hdim
    refine ⟨⟨hslotsReadable, hedgesReadable, hword⟩, ?_⟩
    obtain ⟨slots, edges, dimension, callbacks⟩ := u
    obtain rfl : slots = t.slots := Array.toList_inj.1 hslots
    obtain rfl : edges = t.edges := Array.toList_inj.1 hedges
    obtain rfl : dimension = t.dimension := hdim
    obtain rfl : callbacks = {} := hnone
    rfl
  · rintro ⟨⟨hslotsReadable, hedgesReadable, hword⟩, rfl⟩
    exact ⟨_, _, _, _, _, ⟨rfl, rfl, rfl⟩, ⟨rfl, (hslots _).2 ⟨hslotsReadable, rfl⟩⟩,
      ⟨rfl, (hedges _).2 ⟨hedgesReadable, rfl⟩⟩, word?_encodeWord.2 ⟨hword, rfl⟩, rfl⟩

end Written

section RoundTrip

variable {t u : Tape Float Float} {d : Data}

/-- A tape is written unless functions are registered with it, called or not. -/
theorem exists_encode_iff : (∃ d, encode t = .ok d) ↔ t.hasCallbacks = false := by
  simp [encode_eq_ok_iff]

/-- Sound tapes consist of words while they have a 32-bit index for each slot. -/
theorem Sound.inWords
    (ht : t.Sound)
    (hsize : t.size ≤ indexLimit) :
    t.InWords := by
  have hlt : t.size < UInt32.size := Nat.lt_of_le_of_lt hsize (by decide)
  constructor
  · exact Nat.lt_of_le_of_lt ht.dimension_le hlt
  · intro e he
    obtain ⟨p, hp⟩ := Array.mem_iff_getElem?.1 he
    exact Nat.lt_trans (ht.edge_lt hp) hlt

/-- A tape without functions has nothing in its tables of functions. -/
theorem callbacks_of_hasCallbacks
    (h : t.hasCallbacks = false) :
    t.callbacks = {} := by
  obtain ⟨slots, edges, dimension, ⟨unary, binary, nary⟩⟩ := t
  simp only [hasCallbacks, Bool.not_eq_false', Bool.and_eq_true, Array.isEmpty_iff] at h
  obtain ⟨⟨rfl, rfl⟩, rfl⟩ := h
  rfl

/-- Where no operation calls a function, all that can fail to read back are infinities and
undefined values. -/
theorem readable_iff_allFinite
    (ht : t.InWords)
    (hcount : t.callbackCount = 0) :
    ((∀ s ∈ t.slots, SlotReadable s) ∧ (∀ e ∈ t.edges, EdgeReadable e) ∧
      t.dimension < UInt32.size) ↔ t.AllFinite := by
  constructor
  · rintro ⟨hslots, hedges, -⟩
    constructor
    · intro s hs k hk
      have hop := (hslots s hs).1
      rwa [hk] at hop
    · exact fun s hs => (hslots s hs).2.1
    · exact fun s hs => (hslots s hs).2.2
    · exact fun e he => (hedges e he).2
  · intro h
    refine ⟨fun s hs => ⟨?_, h.value s hs, h.adjoint s hs⟩,
      fun e he => ⟨ht.source e he, h.weight e he⟩, ht.dimension⟩
    have hcallback : s.op.isCallback = false :=
      Bool.eq_false_iff.2 (Array.countP_eq_zero.1 hcount s hs)
    cases hop : s.op with
    | constPower k => exact h.exponent s hs k hop
    | unary i =>
        rw [hop] at hcallback
        cases hcallback
    | binary i =>
        rw [hop] at hcallback
        cases hcallback
    | nary i =>
        rw [hop] at hcallback
        cases hcallback
    | _ => trivial

/-- What was written of a tape reads back where the tape is well formed, calls no functions and has
finite numbers only, and it reads back as the same tape. -/
theorem decode_eq_ok_iff
    (ht : t.InWords)
    (h : encode t = .ok d) :
    decode d = .ok u ↔ (t.isWellFormed = true ∧ t.callbackCount = 0 ∧ t.AllFinite) ∧ u = t := by
  obtain ⟨hnone, rfl⟩ := encode_eq_ok_iff.1 h
  have hsame : { t with callbacks := {} } = t := by
    rw [← callbacks_of_hasCallbacks hnone]
  rw [decode_eq_ok_iff_shape, decodeShape?_written, hsame]
  constructor
  · rintro ⟨⟨hreadable, rfl⟩, hcount, hw⟩
    exact ⟨⟨hw, hcount, (readable_iff_allFinite ht hcount).1 hreadable⟩, rfl⟩
  · rintro ⟨⟨hw, hcount, hfinite⟩, rfl⟩
    exact ⟨⟨(readable_iff_allFinite ht hcount).2 hfinite, rfl⟩, hcount, hw⟩

/-- Of a tape that calls no functions, nothing but a number that is not finite fails to read
back. -/
theorem decode_eq_error_shape_iff
    (ht : t.InWords)
    (hcount : t.callbackCount = 0)
    (h : encode t = .ok d) :
    decode d = .error .shape ↔ ¬t.AllFinite := by
  obtain ⟨-, rfl⟩ := encode_eq_ok_iff.1 h
  rw [← readable_iff_allFinite ht hcount]
  cases hshape : decodeShape? (written t) with
  | none =>
      refine iff_of_true (by rw [decode, hshape]) fun hreadable => ?_
      rw [decodeShape?_written.2 ⟨hreadable, rfl⟩] at hshape
      cases hshape
  | some u =>
      refine iff_of_false ?_ (not_not.2 (decodeShape?_written.1 hshape).1)
      intro herror
      simp only [decode, hshape] at herror
      split at herror
      · cases herror
      · split at herror <;> cases herror

end RoundTrip

section Rewritten

/-- A word reads as it did before it was written anew. -/
theorem sameWord_of_word?
    {d : Data} {n : Nat}
    (h : d.word? = some n) :
    SameWord d (encodeWord n) :=
  ⟨n, h, word?_encodeWord.2 ⟨(word?_eq_some_iff.1 h).2, rfl⟩⟩

theorem sameNumber_of_number?
    {d : Data} {x : Float}
    (h : d.number? = some x) :
    SameNumber d (ofNumber x) :=
  ⟨x, h, number?_ofNumber.2 ⟨isFinite_of_number? h, rfl⟩⟩

theorem plainOp?_eq_some
    {name : String} {op : Op Float}
    (h : plainOp? name = some op) :
    OpReadable op ∧ encodeOp op = .text name := by
  unfold plainOp? at h
  split at h
  all_goals cases h
  all_goals exact ⟨trivial, rfl⟩

/-- An operation is written with the name that it was read from, and its parameter reads as it
did. -/
theorem taggedOp?_eq_some
    {name : String} {d : Data} {op : Op Float}
    (h : taggedOp? name d = some op) :
    OpReadable op ∧
      ∃ d', (encodeOp op).tag? = some (name, d') ∧ (d = d' ∨ SameNumber d d') := by
  have hword : ∀ {n : Nat}, d.word? = some n → n < UInt32.size ∧ d = encodeWord n :=
    fun hn => ⟨(word?_eq_some_iff.1 hn).2, (word?_eq_some_iff.1 hn).1⟩
  unfold taggedOp? at h
  split at h
  · obtain ⟨k, hk, rfl⟩ := Option.map_eq_some_iff.1 h
    exact ⟨isFinite_of_number? hk, _, rfl, .inr (sameNumber_of_number? hk)⟩
  · obtain ⟨n, hn, rfl⟩ := Option.map_eq_some_iff.1 h
    exact ⟨(hword hn).1, _, rfl, .inl (hword hn).2⟩
  · obtain ⟨n, hn, rfl⟩ := Option.map_eq_some_iff.1 h
    exact ⟨(hword hn).1, _, rfl, .inl (hword hn).2⟩
  · obtain ⟨n, hn, rfl⟩ := Option.map_eq_some_iff.1 h
    exact ⟨(hword hn).1, _, rfl, .inl (hword hn).2⟩
  · obtain ⟨hreadable, hop⟩ := plainOp?_eq_some h
    exact ⟨hreadable, .null, by rw [hop]; rfl, .inl rfl⟩
  · cases h

theorem rewritten_of_decodeOp?
    {d : Data} {op : Op Float}
    (h : decodeOp? d = some op) :
    OpReadable op ∧ TagsAgree d (encodeOp op) := by
  unfold decodeOp? at h
  split at h
  · rename_i name
    obtain ⟨hreadable, hop⟩ := plainOp?_eq_some h
    exact ⟨hreadable, name, .null, .null, rfl, by rw [hop]; rfl, .inl rfl⟩
  · rename_i name d
    obtain ⟨hreadable, d', htag, hagree⟩ := taggedOp?_eq_some h
    exact ⟨hreadable, name, d, d', rfl, htag, hagree⟩
  · cases h

theorem rewritten_of_decodeWindow?
    {d : Data} {w : Window}
    (h : decodeWindow? d = some w) :
    WindowsAgree d (encodeWindow w) := by
  obtain ⟨offset, length, hfields, hoffset, hlength⟩ := decodeWindow?_eq_some_iff.1 h
  exact ⟨_, _, hfields, fields?_encodeWindow w, sameWord_of_word? hoffset,
    sameWord_of_word? hlength, trivial⟩

theorem rewritten_of_decodeSlot?
    {d : Data} {s : Slot Float Float}
    (h : decodeSlot? d = some s) :
    SlotReadable s ∧ SlotsAgree d (encodeSlot s) := by
  obtain ⟨op, value, adjoint, inputs, hfields, hop, hvalue, hadjoint, hinputs⟩ :=
    decodeSlot?_eq_some_iff.1 h
  obtain ⟨hreadable, hopAgrees⟩ := rewritten_of_decodeOp? hop
  exact ⟨⟨hreadable, isFinite_of_number? hvalue, isFinite_of_number? hadjoint⟩, _, _, hfields,
    fields?_encodeSlot s, hopAgrees, sameNumber_of_number? hvalue, sameNumber_of_number? hadjoint,
    rewritten_of_decodeWindow? hinputs, trivial⟩

theorem rewritten_of_decodeEdge?
    {d : Data} {e : Edge Float}
    (h : decodeEdge? d = some e) :
    EdgeReadable e ∧ Data.EdgesAgree d (encodeEdge e) := by
  obtain ⟨source, weight, hfields, hsource, hweight⟩ := decodeEdge?_eq_some_iff.1 h
  exact ⟨⟨(word?_eq_some_iff.1 hsource).2, isFinite_of_number? hweight⟩, _, _, hfields,
    fields?_encodeEdge e, sameWord_of_word? hsource, sameNumber_of_number? hweight, trivial⟩

/-- What was read of a table can be read, and is written as a table that agrees. -/
theorem rewritten_of_mapM
    {β : Type} {read : Data → Option β} {write : β → Data} {readable : β → Prop}
    {agree : Data → Data → Prop} {xs : List Data} {ys : List β}
    (h : ∀ x y, read x = some y → readable y ∧ agree x (write y))
    (hread : xs.mapM read = some ys) :
    (∀ y ∈ ys, readable y) ∧ List.Forall₂ agree xs (ys.map write) := by
  induction xs generalizing ys with
  | nil =>
      obtain rfl := Option.some.inj hread
      exact ⟨by simp, .nil⟩
  | cons x xs ih =>
      simp only [List.mapM_cons, Option.bind_eq_bind, Option.bind_eq_some_iff, Option.pure_def,
        Option.some_inj] at hread
      obtain ⟨y, hy, rest, hrest, rfl⟩ := hread
      obtain ⟨hreadable, hagree⟩ := h x y hy
      obtain ⟨hreadableRest, hagreeRest⟩ := ih hrest
      exact ⟨List.forall_mem_cons.2 ⟨hreadable, hreadableRest⟩, .cons hagree hagreeRest⟩

/-- What was read of a tree can be read again, from a tree that agrees with the first. -/
theorem rewritten_of_decodeShape?
    {d : Data} {t : Tape Float Float}
    (h : decodeShape? d = some t) :
    decodeShape? (written t) = some t ∧ TapesAgree d (written t) := by
  obtain ⟨elements, edges, dimension, xs, ys, hfields, ⟨hxs, hslots⟩, ⟨hys, hedges⟩, hdim, hnone⟩ :=
    decodeShape?_eq_some_iff.1 h
  obtain ⟨hslotsReadable, hslotsAgree⟩ :=
    rewritten_of_mapM (fun _ _ => rewritten_of_decodeSlot?) hslots
  obtain ⟨hedgesReadable, hedgesAgree⟩ :=
    rewritten_of_mapM (fun _ _ => rewritten_of_decodeEdge?) hedges
  constructor
  · refine decodeShape?_written.2 ⟨⟨fun s hs => hslotsReadable s (Array.mem_toList_iff.2 hs),
      fun e he => hedgesReadable e (Array.mem_toList_iff.2 he), (word?_eq_some_iff.1 hdim).2⟩, ?_⟩
    rw [← hnone]
  · exact ⟨_, _, hfields, fields?_written t, ⟨_, _, hxs, rfl, hslotsAgree⟩,
      ⟨_, _, hys, rfl, hedgesAgree⟩, sameWord_of_word? hdim, trivial⟩

/-- A tape that was read can be written.  The data agrees with the data that it was read from, and
reads as the same tape. -/
theorem encode_of_decode
    {d : Data} {t : Tape Float Float}
    (h : decode d = .ok t) :
    ∃ d', encode t = .ok d' ∧ TapesAgree d d' ∧ decode d' = .ok t := by
  obtain ⟨hshape, hcount, hw⟩ := decode_eq_ok_iff_shape.1 h
  obtain ⟨hagain, hagree⟩ := rewritten_of_decodeShape? hshape
  have hnone : t.hasCallbacks = false := by
    rw [hasCallbacks, callbacks_of_decodeShape hshape]
    rfl
  exact ⟨written t, encode_eq_ok_iff.2 ⟨hnone, rfl⟩, hagree,
    decode_eq_ok_iff_shape.2 ⟨hagain, hcount, hw⟩⟩

end Rewritten
end Tape
end ReverseMode
