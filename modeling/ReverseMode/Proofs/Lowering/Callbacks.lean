import ReverseMode.Proofs.Compiled.Outcome
import ReverseMode.Proofs.Tape.Encoding

/-!
# Functions on the tape of a term

**Input.**  Any term with any list of variables over which it has a tape.

**Argument.**  A node that calls a function gets one slot and one entry in the table of its arity,
in one step of the pass: the function is registered, and its handle, the size that the table had,
is put in the slot.  So between two steps the handles of an arity are counted up from 0 in slot
order, and the table of the arity lists the functions of the terms left so far, one by one
(`Booked`).  Two nodes with one function have two entries.  At the end the terms left are those of
a walk that are not in the list of variables.

**Results.**
* `emit_appends`: what emitting a term does to handles and tables.
* `Booked.push`, `exists_booked_lower`: one step, and the whole pass, keep the books.
* `ofTerm_callbacks`: handles and tables of the tape of a term, and who refuses it.
-/

namespace ReverseMode

variable {κ α : Type}

section Arities

/-- The three kinds of function that a node can call. -/
inductive Arity where
  | unary
  | binary
  | nary
deriving DecidableEq, Repr

/-- The functions of an arity. -/
def Arity.Fn (α : Type) : Arity → Type
  | unary => UnaryFn α
  | binary => BinaryFn α
  | nary => NaryFn α

/-- The handle by which an operation calls a function of an arity. -/
def Op.handle? : Arity → Op κ → Option Nat
  | .unary, .unary h | .binary, .binary h | .nary, .nary h => some h
  | _, _ => none

/-- The function of an arity that a node calls. -/
def Node.function? {ι : Type} : (a : Arity) → Node κ α ι → Option (a.Fn α)
  | .unary, .unary f _ => some f
  | .binary, .binary f _ _ => some f
  | .nary, .nary f _ => some f
  | _, _ => none

/-- The functions of an arity that are registered. -/
def Callbacks.table (c : Callbacks α) : (a : Arity) → Array (a.Fn α)
  | .unary => c.unary
  | .binary => c.binary
  | .nary => c.nary

/-- The handles of an arity in slot order. -/
def Tape.handles (a : Arity) (t : Tape κ α) : List Nat :=
  t.slots.toList.filterMap fun s => s.op.handle? a

theorem toList_table_withFunctionOf
    {ι : Type} (c : Callbacks α) (n : Node κ α ι) (a : Arity) :
    ((c.withFunctionOf n).table a).toList = (c.table a).toList ++ (n.function? a).toList := by
  cases n <;> cases a <;> first
    | exact Array.toList_push
    | exact (List.append_nil _).symm

/-- The slot of a node calls the function of the node by the next handle. -/
theorem Callbacks.handle?_of_slotOf?
    [Scalar κ α] {ι : Type} {c : Callbacks α} {n : Node κ α ι} {op : Op κ} {v : α}
    (h : c.slotOf? n = some (op, v))
    (a : Arity) :
    op.handle? a = (n.function? a).map fun _ => (c.table a).size := by
  cases n <;> cases h <;> cases a <;> rfl

/-- A node calls a function if it has one of some arity. -/
theorem function?_isSome_iff {ι : Type} {n : Node κ α ι} :
    (∃ a, (n.function? a).isSome = true) ↔ n.callsFunction = true := by
  constructor
  · rintro ⟨a, ha⟩
    cases a <;> cases n <;> first
      | rfl
      | cases ha
  · intro h
    cases n with
    | unary f a => exact ⟨.unary, rfl⟩
    | binary f a b => exact ⟨.binary, rfl⟩
    | nary f ts => exact ⟨.nary, rfl⟩
    | _ => cases h

theorem function?_eq_none_of_isVariable
    {ι : Type} {n : Node κ α ι} {a : Arity}
    (h : n.isVariable = true) :
    n.function? a = none := by
  cases n <;> first
    | cases a <;> rfl
    | cases h

end Arities

namespace Tape

variable [Scalar κ α]

theorem handles_withSlot
    (a : Arity) (t : Tape κ α) (op : Op κ) (v : α) (sources : List Nat) :
    (t.withSlot op v sources).handles a = t.handles a ++ (op.handle? a).toList := by
  rw [handles, slots_withSlot, Array.toList_push, List.filterMap_append, handles]
  cases h : op.handle? a <;> simp [h]

omit [Scalar κ α] in
/-- Functions are registered where a table is not empty. -/
theorem hasCallbacks_iff {t : Tape κ α} :
    t.hasCallbacks = true ↔ ∃ a, (t.callbacks.table a).toList ≠ [] := by
  simp only [hasCallbacks, Bool.not_eq_true', Bool.and_eq_false_iff, Array.isEmpty_eq_false_iff,
    ne_eq, Array.toList_eq_nil_iff]
  constructor
  · rintro ((h | h) | h)
    · exact ⟨.unary, h⟩
    · exact ⟨.binary, h⟩
    · exact ⟨.nary, h⟩
  · rintro ⟨a, ha⟩
    cases a with
    | unary => exact .inl (.inl ha)
    | binary => exact .inl (.inr ha)
    | nary => exact .inr ha

end Tape

namespace Graph

variable [Exponent κ] [Scalar κ α] {g : Graph κ α} {root t : g.Term} {vs : List g.Variable}
  {tape tape' : Tape κ α} {slots : g.Table (Option Nat)} {done : List g.Term}

section Emission

/-- A tape has got one more slot, for a node.  The function of the node has been registered, and
the slot calls it by the handle that this has given. -/
structure Appends {ι : Type} (n : Node κ α ι) (tape tape' : Tape κ α) : Prop where
  size : tape'.size = tape.size + 1
  table : ∀ a, (tape'.callbacks.table a).toList =
    (tape.callbacks.table a).toList ++ (n.function? a).toList
  handles : ∀ a, tape'.handles a =
    tape.handles a ++ ((n.function? a).map fun _ => (tape.callbacks.table a).size).toList

omit [Exponent κ] in
/-- An operation that names the new entry of the tables is pushed. -/
theorem appends_withSlot
    {ι : Type} {n : Node κ α ι} {op : Op κ}
    (hop : ∀ a, op.handle? a = (n.function? a).map fun _ => (tape.callbacks.table a).size)
    (v : α) (sources : List Nat) :
    Appends n tape
      ({ tape with callbacks := tape.callbacks.withFunctionOf n }.withSlot op v sources) := by
  constructor
  · exact Tape.size_withSlot _ _ _ _
  · exact toList_table_withFunctionOf tape.callbacks n
  · intro a
    rw [Tape.handles_withSlot, hop]
    rfl

/-- Emitting a term gives it the next slot, and registers its function if it has one. -/
theorem emit_appends
    {r : Nat × Tape κ α}
    (h : g.emit t slots tape = .ok r) :
    r.1 = tape.size ∧ Appends (g.node t) tape r.2 := by
  obtain ⟨op, v, sources, hslot, -, rfl⟩ := emit_eq_ok h
  exact ⟨rfl, appends_withSlot (Callbacks.handle?_of_slotOf? hslot) v sources⟩

end Emission

section Books

/-- The handles of each arity count up from 0 in slot order, and the table of the arity lists the
functions of some terms, one for each term that has one. -/
structure Booked (tape : Tape κ α) (done : List g.Term) : Prop where
  handles : ∀ a, tape.handles a = List.range (tape.callbacks.table a).size
  table : ∀ a, (tape.callbacks.table a).toList = done.filterMap fun t => (g.node t).function? a

omit [Scalar κ α] in
/-- A slot for a further term keeps the books. -/
theorem Booked.push
    (h : Booked tape done)
    (happends : Appends (g.node t) tape tape') :
    Booked tape' (done ++ [t]) := by
  constructor
  · intro a
    have hsize := congrArg List.length (happends.table a)
    rw [List.length_append, Array.length_toList, Array.length_toList] at hsize
    rw [happends.handles, h.handles, hsize]
    cases (g.node t).function? a with
    | none => exact List.append_nil _
    | some f => exact List.range_succ.symm
  · intro a
    rw [happends.table, h.table, List.filterMap_append]
    cases hf : (g.node t).function? a <;> simp [hf]

/-- A slot that calls no function does not show in the books. -/
theorem Booked.withSlot
    {op : Op κ}
    (h : Booked tape done)
    (hop : ∀ a, op.handle? a = none)
    (v : α) (sources : List Nat) :
    Booked (tape.withSlot op v sources) done := by
  constructor
  · intro a
    rw [Tape.handles_withSlot, hop, h.handles]
    exact List.append_nil _
  · exact h.table

omit [Scalar κ α] in
theorem Locates.unique
    {terms terms' : List g.Term}
    (h : Locates slots terms)
    (h' : Locates slots terms') :
    terms = terms' := by
  apply List.ext_getElem?
  intro i
  apply Option.ext
  intro t
  exact (h t i).symm.trans (h' t i)

/-- The books of the pass, with the terms that have been given slots. -/
structure Bookkeeping (vs : List g.Variable) (s : LoweringState g) (done : List g.Term) :
    Prop where
  located : Locates s.slots (slotTerms vs done)
  size : s.tape.size = (slotTerms vs done).length
  booked : Booked s.tape done

theorem Bookkeeping.start
    (h : Binds vs tape slots)
    (stack : List (Task g.Term)) :
    Bookkeeping vs ⟨tape, slots, 0, stack⟩ [] := by
  have hterms : slotTerms vs [] = vs.map fun v => v.1 := List.append_nil _
  constructor
  · rw [hterms]
    exact h.located
  · rw [hterms, List.length_map]
    exact h.size
  · constructor
    · intro a
      show tape.handles a = _
      rw [Tape.handles, h.inputs, h.callbacks, List.filterMap_eq_nil_iff.2]
      · cases a <;> rfl
      · intro s hs
        rw [Array.toList_replicate] at hs
        rw [List.eq_of_mem_replicate hs]
        cases a <;> rfl
    · intro a
      show (tape.callbacks.table a).toList = []
      rw [h.callbacks]
      cases a <;> rfl

/-- A task keeps the books: only leaving a term that has no slot yet writes to the tape. -/
theorem Bookkeeping.step
    {s r : LoweringState g}
    (h : Bookkeeping vs s done)
    (hr : g.lowerStep s = .ok r) :
    ∃ done', Bookkeeping vs r done' := by
  rcases s with ⟨tape, slots, hits, _ | ⟨t | t, rest⟩⟩
  · cases hr
    exact ⟨done, h⟩
  · rw [lowerStep] at hr
    split at hr
    · cases hr
      exact ⟨done, h.located, h.size, h.booked⟩
    · split at hr
      · cases hr
      · cases hr
        exact ⟨done, h.located, h.size, h.booked⟩
  · rw [lowerStep] at hr
    split at hr
    · cases hr
      exact ⟨done, h.located, h.size, h.booked⟩
    · rename_i hnone
      have ht : t ∉ slotTerms vs done := h.located.isSome_iff.not.1 hnone
      have hsize : tape.size = (slotTerms vs done).length := h.size
      split at hr
      · cases hr
      · rename_i slot tape' hemit
        cases hr
        obtain ⟨hslot, happends⟩ := emit_appends hemit
        obtain rfl : slot = tape.size := hslot
        refine ⟨done ++ [t], ?_, ?_, h.booked.push happends⟩
        · rw [slotTerms_append, hsize]
          exact h.located.push ht
        · rw [slotTerms_append, List.length_append, ← hsize]
          exact happends.size

/-- The pass ends with its books kept for the terms that it has given slots. -/
theorem booked_of_lower
    {s : LoweringState g}
    (h : g.lower root vs = .ok s)
    (hfinished : Finished root vs s done) :
    Booked s.tape done := by
  rcases bindAll_outcome root vs with ⟨⟨tape, slots⟩, hbind, hbinds⟩ | ⟨e, hbind, -⟩
  · rw [lower, hbind, ok_bind] at h
    have hstep : ∀ s r : LoweringState g, (∃ done, Bookkeeping vs s done) →
        g.lowerStep s = .ok r → ∃ done, Bookkeeping vs r done := by
      rintro s r ⟨done, hs⟩ hr
      exact hs.step hr
    obtain ⟨⟨done', hbooks⟩, -⟩ :=
      lowerFrom_preserves hstep _ ⟨[], Bookkeeping.start hbinds [.enter root]⟩ h
    have hterms := hbooks.located.unique hfinished.progress.located
    obtain rfl : done' = done := List.append_cancel_left hterms
    exact hbooks.booked
  · rw [lower, hbind, error_bind] at h
    cases h

/-- The tape of a term is the one that the pass has left, or that with the wrapper of a variable. -/
theorem exists_lower_of_ofTerm
    {l : Lowered κ α}
    (h : Tape.ofTerm g root vs = .ok l) :
    ∃ s, g.lower root vs = .ok s ∧
      (l.tape = s.tape ∨
        ∃ sources, l.tape = s.tape.withSlot (.constPower Exponent.one) 0 sources) := by
  rw [Tape.ofTerm] at h
  obtain ⟨s, hs, h⟩ := bind_eq_ok_iff.1 h
  refine ⟨s, hs, ?_⟩
  split at h
  · cases h
  · rename_i slot _
    split at h
    · split at h
      · cases h
      · rename_i wrapper tape hpush
        cases h
        obtain ⟨-, -, -, hr⟩ := Tape.pushOp_eq_ok hpush
        exact .inr ⟨[slot], congrArg Prod.snd hr⟩
    · cases h
      exact .inl rfl

end Books

section Results

variable {l : Lowered κ α}

/-- The books of the tape of a term are those of a walk. -/
theorem booked_of_ofTerm
    (h : Tape.ofTerm g root vs = .ok l) :
    Booked l.tape (g.walk root) ∧ l.tape.callbackCount = (g.callbacksBelow root).card := by
  obtain ⟨s, hs, htape⟩ := exists_lower_of_ofTerm h
  rcases lower_outcome root vs with ⟨s', hs', done, hfinished⟩ | ⟨e, he, -⟩
  · obtain rfl := Except.ok.inj (hs.symm.trans hs')
    have hbooked := booked_of_lower hs hfinished
    have hcount := hfinished.callbackCount
    -- What a walk meets beside the terms that were given slots are variables of the list.
    have hwalk : ∀ a, (done.filterMap fun t => (g.node t).function? a) =
        (g.walk root).filterMap fun t => (g.node t).function? a := by
      intro a
      rw [hfinished.done_eq, List.filterMap_filter]
      apply List.filterMap_congr
      intro t _
      split
      · rfl
      · rename_i hv
        rw [decide_eq_true_eq, not_not] at hv
        obtain ⟨v, -, rfl⟩ := List.mem_map.1 hv
        exact (function?_eq_none_of_isVariable v.2).symm
    have hbooked' : Booked s.tape (g.walk root) :=
      ⟨hbooked.handles, fun a => (hbooked.table a).trans (hwalk a)⟩
    rcases htape with htape | ⟨sources, htape⟩
    · rw [htape]
      exact ⟨hbooked', hcount⟩
    · rw [htape, Tape.callbackCount_withSlot]
      exact ⟨hbooked'.withSlot (fun a => by cases a <;> rfl) 0 sources, hcount⟩
  · rw [hs] at he
    cases he

theorem hasCallbacks_of_ofTerm_iff
    (h : Tape.ofTerm g root vs = .ok l) :
    l.tape.hasCallbacks = true ↔ ∃ t, g.Reaches root t ∧ (g.node t).callsFunction = true := by
  have hbooked := (booked_of_ofTerm h).1
  rw [Tape.hasCallbacks_iff]
  constructor
  · rintro ⟨a, ha⟩
    rw [hbooked.table] at ha
    obtain ⟨f, hf⟩ := List.exists_mem_of_ne_nil _ ha
    obtain ⟨t, ht, hft⟩ := List.mem_filterMap.1 hf
    exact ⟨t, mem_walk.1 ht, function?_isSome_iff.1 ⟨a, Option.isSome_iff_exists.2 ⟨f, hft⟩⟩⟩
  · rintro ⟨t, ht, hcalls⟩
    obtain ⟨a, ha⟩ := function?_isSome_iff.2 hcalls
    obtain ⟨f, hf⟩ := Option.isSome_iff_exists.1 ha
    refine ⟨a, ?_⟩
    rw [hbooked.table]
    exact List.ne_nil_of_mem (List.mem_filterMap.2 ⟨t, mem_walk.2 ht, hf⟩)

/-- The one cause for which the tape of a term has no program are functions that are not allowed. -/
theorem ofTape_of_ofTerm_eq_error_iff
    {e : Error κ}
    (h : Tape.ofTerm g root vs = .ok l) :
    Program.ofTape l.tape false = .error e ↔
      (∃ t, g.Reaches root t ∧ (g.node t).callsFunction = true) ∧
        e = .callbacksNotSupported (g.callbacksBelow root).card := by
  obtain ⟨-, hcount⟩ := booked_of_ofTerm h
  have hcalls : (∃ t, g.Reaches root t ∧ (g.node t).callsFunction = true) ↔
      0 < l.tape.callbackCount := by
    rw [hcount, Finset.card_pos]
    exact exists_congr fun t => mem_callbacksBelow.symm
  rw [hcalls, ← hcount]
  by_cases hpos : 0 < l.tape.callbackCount
  · rw [Program.ofTape, if_pos (by simp [hpos])]
    simp [hpos, eq_comm]
  · obtain ⟨p, hp⟩ : ∃ p, Program.ofTape l.tape false = .ok p :=
      Program.exists_ofTape (Tape.Reachable.ofTerm h).sound (handlesRegistered_of_ofTerm h)
        (.inr (Nat.eq_zero_of_not_pos hpos))
    simp [hp, hpos]

theorem encode_eq_error_iff
    {t : Tape Float Float} {e : StorageError} :
    Tape.encode t = .error e ↔ t.hasCallbacks = true ∧ e = .callbacksRegistered := by
  rw [Tape.encode]
  split <;> simp [*, eq_comm]

/-- On the tape of a term, the handles of each arity are 0, 1, 2 and so on in slot order, and the
table of the arity has the function of each distinct node below the root that calls one, node by
node.  So functions are registered just when the root reaches a node that calls one; then, and only
then, a program without functions is refused, with the number of these nodes. -/
theorem ofTerm_callbacks :
    (∀ (g : Graph κ α) (root : g.Term) (vs : List g.Variable) (l : Lowered κ α),
      Tape.ofTerm g root vs = .ok l →
      ((g.walk root).Nodup ∧ ∀ t, t ∈ g.walk root ↔ g.Reaches root t) ∧
      (∀ a, l.tape.handles a = List.range (l.tape.callbacks.table a).size ∧
        (l.tape.callbacks.table a).toList =
          (g.walk root).filterMap fun t => (g.node t).function? a) ∧
      (l.tape.hasCallbacks = true ↔
        ∃ t, g.Reaches root t ∧ (g.node t).callsFunction = true) ∧
      ∀ e, Program.ofTape l.tape false = .error e ↔
        (∃ t, g.Reaches root t ∧ (g.node t).callsFunction = true) ∧
          e = .callbacksNotSupported (g.callbacksBelow root).card) ∧
    ∀ (g : Graph Float Float) (root : g.Term) (vs : List g.Variable) (l : Lowered Float Float),
      Tape.ofTerm g root vs = .ok l →
      ∀ e, Tape.encode l.tape = .error e ↔
        (∃ t, g.Reaches root t ∧ (g.node t).callsFunction = true) ∧
          e = .callbacksRegistered := by
  refine ⟨fun g root vs l h => ⟨⟨nodup_walk root, fun t => mem_walk⟩, fun a => ?_, ?_, fun e => ?_⟩,
    fun g root vs l h e => ?_⟩
  · have hbooked := (booked_of_ofTerm h).1
    exact ⟨hbooked.handles a, hbooked.table a⟩
  · exact hasCallbacks_of_ofTerm_iff h
  · exact ofTape_of_ofTerm_eq_error_iff h
  · rw [encode_eq_error_iff, hasCallbacks_of_ofTerm_iff h]

end Results
end Graph

namespace Graph

section Example

/-- A square, with its derivative. -/
def squareFn : UnaryFn Float where
  eval x := x * x
  derivative x := x + x

/-- A product, with its partials. -/
def productFn : BinaryFn Float where
  eval x y := x * y
  partials x y := (y, x)

/-- The term `p(s(x), s(x)) + s(x)` with two squares that call one function, the first of them used
twice. -/
def twoSquares : Graph Float Float where
  nodes := #[.var none, .unary squareFn 0, .unary squareFn 0, .binary productFn 1 2, .sum [3, 1]]
  node_ok := by decide

def twoSquares.x : twoSquares.Variable := ⟨⟨0, by decide⟩, by cbv⟩

def twoSquares.root : twoSquares.Term := ⟨4, by decide⟩

/-- The two squares have handles of their own, and three nodes call functions. -/
theorem ofTerm_callbacks_twoSquares :
    ∃ l, Tape.ofTerm twoSquares twoSquares.root [twoSquares.x] = .ok l ∧
      l.tape.handles .unary = [0, 1] ∧ l.tape.handles .binary = [0] ∧ l.tape.handles .nary = [] ∧
      l.tape.hasCallbacks = true ∧
      Program.ofTape l.tape false =
        .error (.callbacksNotSupported (twoSquares.callbacksBelow twoSquares.root).card) ∧
      Tape.encode l.tape = .error .callbacksRegistered := by
  have hfits : twoSquares.Lowerable twoSquares.root [twoSquares.x] := by
    apply lowerable_of_graph_fits
    · simp
    · rintro ⟨t, ht⟩
      have hvars : ∀ t : twoSquares.Term, twoSquares.isVariable t = true → t = twoSquares.x.1 := by
        decide
      simp [hvars t ht]
    · decide
    · decide
  have hcalls : ∃ t, twoSquares.Reaches twoSquares.root t ∧
      (twoSquares.node t).callsFunction = true := ⟨⟨1, by decide⟩, .single (by decide), by decide⟩
  have hwalk : twoSquares.walk twoSquares.root =
      [⟨0, by decide⟩, ⟨1, by decide⟩, ⟨2, by decide⟩, ⟨3, by decide⟩, ⟨4, by decide⟩] := by cbv
  obtain ⟨l, -, hofTerm, -⟩ := ofTerm_spec hfits
  obtain ⟨hmain, hstored⟩ := ofTerm_callbacks (κ := Float) (α := Float)
  obtain ⟨-, hbooks, hregistered, hprogram⟩ := hmain _ _ _ l hofTerm
  have hhandles : ∀ a, l.tape.handles a =
      List.range ((twoSquares.walk twoSquares.root).filterMap fun t =>
        (twoSquares.node t).function? a).length := by
    intro a
    rw [(hbooks a).1, ← (hbooks a).2, Array.length_toList]
  rw [hwalk] at hhandles
  refine ⟨l, hofTerm, hhandles .unary, hhandles .binary, hhandles .nary, hregistered.2 hcalls, ?_, ?_⟩
  · exact (hprogram _).2 ⟨hcalls, rfl⟩
  · exact (hstored _ _ _ l hofTerm _).2 ⟨hcalls, rfl⟩

end Example
end Graph
end ReverseMode
