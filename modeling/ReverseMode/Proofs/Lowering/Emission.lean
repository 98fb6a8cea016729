import ReverseMode.Proofs.Tape.Reachable

/-!
# The slot of a term

What emitting a term appends to the tape.  `Stands` relates a node to the operation of the slot
that stands for it: the same kind, the same constant or exponent, and a handle under which the
function of the node is registered.

**Results.**
* `emit_eq`: where the operands have slots, emitting a term that is not a variable pushes a slot
  that stands for it, over the slots of its operands.
* `emit_eq_ok`: all that emitting a term can do, whatever has slots.
* `sourcesIn_withSlot_self`: the window of the new slot shows these, as long as the edge table
  has less than 2 ^ 32 edges.
-/

namespace ReverseMode

variable {κ α : Type} [Scalar κ α]

/-- A node and the operation and stored value of a slot that stands for it. -/
inductive Stands (c : Callbacks α) {ι : Type} : Node κ α ι → Op κ → α → Prop where
  | const (x : α) : Stands c (.const x) .const x
  | zero : Stands c .zero .const 0
  | sum (ts : List ι) (v : α) : Stands c (.sum ts) .sum v
  | product (a b : ι) (v : α) : Stands c (.product a b) .product v
  | constPower (a : ι) (k : κ) (v : α) : Stands c (.constPower a k) (.constPower k) v
  | termPower (a b : ι) (v : α) : Stands c (.termPower a b) .termPower v
  | exp (a : ι) (v : α) : Stands c (.exp a) .exp v
  | ln (a : ι) (v : α) : Stands c (.ln a) .ln v
  | unary {f : UnaryFn α} (a : ι) (v : α) {h : Nat} (hf : c.unary[h]? = some f) :
      Stands c (.unary f a) (.unary h) v
  | binary {f : BinaryFn α} (a b : ι) (v : α) {h : Nat} (hf : c.binary[h]? = some f) :
      Stands c (.binary f a b) (.binary h) v
  | nary {f : NaryFn α} (ts : List ι) (v : α) {h : Nat} (hf : c.nary[h]? = some f) :
      Stands c (.nary f ts) (.nary h) v

/-- Tables of functions that have all that others have, and at most one more of each arity. -/
structure Callbacks.Grown (c c' : Callbacks α) : Prop where
  unary : ∀ (h : Nat) (f : UnaryFn α), c.unary[h]? = some f → c'.unary[h]? = some f
  binary : ∀ (h : Nat) (f : BinaryFn α), c.binary[h]? = some f → c'.binary[h]? = some f
  nary : ∀ (h : Nat) (f : NaryFn α), c.nary[h]? = some f → c'.nary[h]? = some f
  unary_size : c'.unary.size ≤ c.unary.size + 1
  binary_size : c'.binary.size ≤ c.binary.size + 1
  nary_size : c'.nary.size ≤ c.nary.size + 1

/-- The tables with one more entry, for the function of a node, if it has one. -/
def Callbacks.withFunctionOf {ι : Type} (c : Callbacks α) : Node κ α ι → Callbacks α
  | .unary f _ => { c with unary := c.unary.push f }
  | .binary f _ _ => { c with binary := c.binary.push f }
  | .nary f _ => { c with nary := c.nary.push f }
  | _ => c

/-- The operation and the stored value of the slot of a node that is not a variable.  A function
that the node calls gets the next handle of its arity. -/
def Callbacks.slotOf? {ι : Type} (c : Callbacks α) : Node κ α ι → Option (Op κ × α)
  | .const x => some (.const, x)
  | .zero => some (.const, 0)
  | .var _ => none
  | .sum _ => some (.sum, 0)
  | .product _ _ => some (.product, 0)
  | .constPower _ k => some (.constPower k, 0)
  | .termPower _ _ => some (.termPower, 0)
  | .exp _ => some (.exp, 0)
  | .ln _ => some (.ln, 0)
  | .unary _ _ => some (.unary c.unary.size, 0)
  | .binary _ _ _ => some (.binary c.binary.size, 0)
  | .nary _ _ => some (.nary c.nary.size, 0)

/-- Whether a node calls a function. -/
def Node.callsFunction {ι : Type} : Node κ α ι → Bool
  | .unary _ _ | .binary _ _ _ | .nary _ _ => true
  | _ => false

namespace Callbacks

variable {c c' : Callbacks α}

theorem grown_refl (c : Callbacks α) : c.Grown c := by
  constructor <;> first
    | exact fun _ _ h => h
    | exact Nat.le_succ _

theorem getElem?_push_of_some
    {β : Type} {xs : Array β} {b x : β} {i : Nat}
    (h : xs[i]? = some x) :
    (xs.push b)[i]? = some x := by
  have hi := (Array.getElem?_eq_some_iff.1 h).1
  rw [Array.getElem?_push, if_neg (by omega), h]

omit [Scalar κ α] in
theorem grown_withFunctionOf {ι : Type} (c : Callbacks α) (n : Node κ α ι) :
    c.Grown (c.withFunctionOf n) := by
  cases n <;> constructor <;> first
    | exact fun _ _ h => getElem?_push_of_some h
    | exact fun _ _ h => h
    | exact Nat.le_of_eq (Array.size_push _)
    | exact Nat.le_succ _

omit [Scalar κ α] in
/-- A function that is registered stays so. -/
theorem Grown.registered
    {op : Op κ}
    (hc : c.Grown c')
    (h : op.RegisteredIn c) :
    op.RegisteredIn c' := by
  cases op with
  | unary n =>
      have hn := hc.unary n _ (Array.getElem?_eq_getElem h)
      exact (Array.getElem?_eq_some_iff.1 hn).1
  | binary n =>
      have hn := hc.binary n _ (Array.getElem?_eq_getElem h)
      exact (Array.getElem?_eq_some_iff.1 hn).1
  | nary n =>
      have hn := hc.nary n _ (Array.getElem?_eq_getElem h)
      exact (Array.getElem?_eq_some_iff.1 hn).1
  | _ => trivial

end Callbacks

section Standing

variable {c c' : Callbacks α} {ι : Type} {n : Node κ α ι} {op : Op κ} {v : α}

theorem Stands.grow
    (h : Stands c n op v)
    (hc : c.Grown c') :
    Stands c' n op v := by
  cases h with
  | unary a v hf => exact .unary a v (hc.unary _ _ hf)
  | binary a b v hf => exact .binary a b v (hc.binary _ _ hf)
  | nary ts v hf => exact .nary ts v (hc.nary _ _ hf)
  | _ => constructor

/-- The function that a slot calls for a node is registered. -/
theorem Stands.registered
    (h : Stands c n op v) :
    op.RegisteredIn c := by
  cases h with
  | unary a v hf => exact (Array.getElem?_eq_some_iff.1 hf).1
  | binary a b v hf => exact (Array.getElem?_eq_some_iff.1 hf).1
  | nary ts v hf => exact (Array.getElem?_eq_some_iff.1 hf).1
  | _ => trivial

theorem Stands.isInput_eq_false
    (h : Stands c n op v) :
    op.isInput = false := by
  cases h <;> rfl

/-- A constant slot stands for a constant and holds its value, or it stands for a zero. -/
theorem Stands.eq_of_isConst
    (h : Stands c n op v)
    (hop : op.isConst = true) :
    n = .const v ∨ v = 0 := by
  cases h with
  | const x => exact .inl rfl
  | zero => exact .inr rfl
  | _ => cases hop

/-- The slots that call functions stand for the nodes that do. -/
theorem Stands.isCallback_eq
    (h : Stands c n op v) :
    op.isCallback = n.callsFunction := by
  cases h <;> rfl

theorem Stands.isVariable_eq_false
    (h : Stands c n op v) :
    n.isVariable = false := by
  cases h <;> rfl

variable [Exponent κ]

/-- A node that may stand in a term has as many operands as its operation takes. -/
theorem Stands.accepts
    (h : Stands c n op v)
    (hn : n.refusal? = none) :
    op.accepts n.operands.length = true := by
  cases h with
  | sum ts v =>
      rw [Node.refusal?] at hn
      split at hn
      · exact decide_eq_true ‹_›
      · cases hn
  | nary ts v hf =>
      rw [Node.refusal?] at hn
      split at hn
      · exact decide_eq_true ‹_›
      · cases hn
  | _ => rfl

end Standing

namespace Tape

variable {t : Tape κ α}

theorem pushSlot_of_lt
    {op : Op κ} {v : α} {sources : List Nat}
    (h : t.size < indexLimit) :
    t.pushSlot op v sources = .ok (t.size, t.withSlot op v sources) := by
  rw [pushSlot, if_pos h]
  rfl

theorem pushSlot_of_le
    {op : Op κ} {v : α} {sources : List Nat}
    (h : indexLimit ≤ t.size) :
    t.pushSlot op v sources = .error .tapeTooLong := by
  rw [pushSlot, if_neg (by omega)]

theorem pushInput_of_lt
    (hdimension : t.size = t.dimension)
    (h : t.size < indexLimit) :
    t.pushInput = .ok (t.size, { t with dimension := t.dimension + 1 }.withSlot .input 0 []) := by
  rw [pushInput, if_pos hdimension]
  exact pushSlot_of_lt (t := { t with dimension := t.dimension + 1 }) h

theorem pushInput_of_le
    (hdimension : t.size = t.dimension)
    (h : indexLimit ≤ t.size) :
    t.pushInput = .error .tapeTooLong := by
  rw [pushInput, if_pos hdimension]
  exact pushSlot_of_le (t := { t with dimension := t.dimension + 1 }) h

theorem pushOp_of_pushable
    {op : Op κ} {sources : List Nat}
    (hop : pushable op sources.length = true)
    (hsources : ∀ j ∈ sources, j < t.size) :
    t.pushOp op sources = t.pushSlot op 0 sources := by
  have hall : sources.all (fun j => decide (j < t.size)) = true := by
    simpa [List.all_eq_true] using hsources
  rw [pushOp, hop, hall]
  rfl

theorem callbackCount_withSlot (t : Tape κ α) (op : Op κ) (v : α) (sources : List Nat) :
    (t.withSlot op v sources).callbackCount =
      t.callbackCount + if op.isCallback then 1 else 0 := by
  rw [callbackCount, slots_withSlot, Array.countP_push]
  rfl

/-- The functions that a tape calls stay registered when it grows by a slot whose function is. -/
theorem HandlesRegistered.withSlot
    {c : Callbacks α} {op : Op κ}
    (ht : t.HandlesRegistered)
    (hc : t.callbacks.Grown c)
    (hop : op.RegisteredIn c)
    (v : α) (sources : List Nat) :
    ({ t with callbacks := c }.withSlot op v sources).HandlesRegistered := by
  intro s hs
  rw [slots_withSlot] at hs
  rcases Array.mem_push.1 hs with hs | rfl
  · exact hc.registered (ht s hs)
  · exact hop

/-- The window of a new slot shows the sources that it was given. -/
theorem sourcesIn_withSlot_self
    (op : Op κ) (v : α) {sources : List Nat}
    (h : t.edges.size + sources.length < UInt32.size) :
    (t.withSlot op v sources).sourcesIn (Window.ofNat t.edges.size sources.length) =
      sources := by
  have hstart : (Window.ofNat t.edges.size sources.length).start = t.edges.size := by
    rw [start_ofNat, Nat.mod_eq_of_lt (by omega)]
  have hlength := length_ofNat t.edges.size sources.length
  rw [Nat.mod_eq_of_lt (by omega)] at hlength
  apply List.ext_getElem?
  intro k
  rw [sourcesIn, List.getElem?_map, getElem?_edgeList, hlength, hstart, edges_withSlot]
  split
  · rw [Array.getElem?_append_right (by omega), Nat.add_sub_cancel_left, newEdges,
      List.getElem?_toArray, List.getElem?_map, Option.map_map]
    simp [Function.comp_def]
  · rw [List.getElem?_eq_none (by omega)]
    rfl

end Tape

namespace Graph

variable [Exponent κ] {g : Graph κ α}

omit [Scalar κ α] in
theorem refusal?_mapOperands
    {ι β : Type} (n : Node κ α ι) (f : (i : ι) → i ∈ n.operands → β) :
    (n.mapOperands f).refusal? = n.refusal? := by
  cases n <;> simp [Node.mapOperands, Node.refusal?]

omit [Scalar κ α] in
theorem refusal?_node (t : g.Term) : (g.node t).refusal? = none := by
  rw [node, refusal?_mapOperands]
  exact (g.node_ok t t.isLt).1

/-- An operation that stands for a node is pushed over the slots of its operands. -/
theorem emitOp_of_stands
    {c : Callbacks α} {n : Node κ α g.Term} {op : Op κ} {v : α}
    {slots : g.Table (Option Nat)} {sources : List Nat} {tape : Tape κ α}
    (hstands : Stands c n op v)
    (hconst : op.isConst = false)
    (hn : n.refusal? = none)
    (hslots : g.operandSlots slots n.operands = .ok sources)
    (hsources : ∀ j ∈ sources, j < tape.size) :
    g.emitOp slots n.operands op tape = (tape.pushSlot op 0 sources).mapError .fault := by
  have hlen : sources.length = n.operands.length := length_of_mapM_eq_ok hslots
  have hop : Tape.pushable op sources.length = true := by
    rw [Tape.pushable, hstands.isInput_eq_false, hconst, hlen, hstands.accepts hn]
    rfl
  rw [emitOp, hslots]
  simp only [Tape.pushOp_of_pushable hop hsources]

/-- For a term that is not a variable, a slot that stands for it is appended.  A function is
registered for a term that calls one only. -/
theorem emit_eq
    {t : g.Term} {slots : g.Table (Option Nat)} {sources : List Nat} {tape : Tape κ α}
    (ht : g.isVariable t = false)
    (hslots : g.operandSlots slots (g.operands t) = .ok sources)
    (hsources : ∀ j ∈ sources, j < tape.size)
    (hunary : tape.callbacks.unary.size ≤ indexLimit)
    (hbinary : tape.callbacks.binary.size ≤ indexLimit)
    (hnary : tape.callbacks.nary.size ≤ indexLimit) :
    ∃ c op v, g.emit t slots tape =
        ({ tape with callbacks := c }.pushSlot op v sources).mapError .fault ∧
      Stands c (g.node t) op v ∧ tape.callbacks.Grown c ∧
      ((g.node t).callsFunction = false → c = tape.callbacks) := by
  have hn := g.refusal?_node t
  rw [isVariable] at ht
  rw [operands] at hslots
  rw [emit]
  generalize g.node t = n at ht hslots hn
  -- A leaf is pushed as a constant.  What computes is pushed over its operands, where a function
  -- is registered first.
  have hpush : ∀ {c : Callbacks α} {op : Op κ}, tape.callbacks.Grown c → Stands c n op 0 →
      op.isConst = false → (n.callsFunction = false → c = tape.callbacks) →
        ∃ c' op' v, g.emitOp slots n.operands op { tape with callbacks := c } =
            ({ tape with callbacks := c' }.pushSlot op' v sources).mapError .fault ∧
          Stands c' n op' v ∧ tape.callbacks.Grown c' ∧
          (n.callsFunction = false → c' = tape.callbacks) := by
    intro c op hgrown hstands hconst hsame
    exact ⟨c, op, 0, emitOp_of_stands hstands hconst hn hslots hsources, hstands, hgrown, hsame⟩
  have hrefl := Callbacks.grown_refl tape.callbacks
  have hgrown := Callbacks.grown_withFunctionOf tape.callbacks n
  cases n with
  | var name => cases ht
  | const x =>
      obtain rfl : [] = sources := Except.ok.inj hslots
      exact ⟨_, _, _, rfl, .const x, hrefl, fun _ => rfl⟩
  | zero =>
      obtain rfl : [] = sources := Except.ok.inj hslots
      exact ⟨_, _, _, rfl, .zero, hrefl, fun _ => rfl⟩
  | sum ts => exact hpush hrefl (.sum ts 0) rfl fun _ => rfl
  | product a b => exact hpush hrefl (.product a b 0) rfl fun _ => rfl
  | constPower a k => exact hpush hrefl (.constPower a k 0) rfl fun _ => rfl
  | termPower a b => exact hpush hrefl (.termPower a b 0) rfl fun _ => rfl
  | exp a => exact hpush hrefl (.exp a 0) rfl fun _ => rfl
  | ln a => exact hpush hrefl (.ln a 0) rfl fun _ => rfl
  | unary f a =>
      simp only [Tape.registerUnary, if_pos hunary]
      exact hpush hgrown (.unary a 0 Array.getElem?_push_size) rfl fun h =>
        absurd h.symm Bool.false_ne_true
  | binary f a b =>
      simp only [Tape.registerBinary, if_pos hbinary]
      exact hpush hgrown (.binary a b 0 Array.getElem?_push_size) rfl fun h =>
        absurd h.symm Bool.false_ne_true
  | nary f ts =>
      simp only [Tape.registerNary, if_pos hnary]
      exact hpush hgrown (.nary ts 0 Array.getElem?_push_size) rfl fun h =>
        absurd h.symm Bool.false_ne_true

/-- An operation that is emitted has the slots of its operands for sources. -/
theorem emitOp_eq_ok
    {ts : List g.Term} {op : Op κ} {slots : g.Table (Option Nat)} {tape : Tape κ α}
    {r : Nat × Tape κ α}
    (h : g.emitOp slots ts op tape = .ok r) :
    ∃ sources, g.operandSlots slots ts = .ok sources ∧
      r = (tape.size, tape.withSlot op 0 sources) := by
  rw [emitOp] at h
  split at h
  · cases h
  · rename_i sources hsources
    obtain ⟨-, -, -, hr⟩ := Tape.pushOp_eq_ok (mapError_eq_ok_iff.1 h)
    exact ⟨sources, hsources, hr⟩

/-- All that emitting a term can do: the function of its node, if it has one, is registered, and
the slot of the node is appended over the slots of the operands. -/
theorem emit_eq_ok
    {t : g.Term} {slots : g.Table (Option Nat)} {tape : Tape κ α} {r : Nat × Tape κ α}
    (h : g.emit t slots tape = .ok r) :
    ∃ op v sources, tape.callbacks.slotOf? (g.node t) = some (op, v) ∧
      g.operandSlots slots (g.operands t) = .ok sources ∧
      r = (tape.size, { tape with
        callbacks := tape.callbacks.withFunctionOf (g.node t) }.withSlot op v sources) := by
  rw [emit] at h
  rw [operands]
  generalize g.node t = n at h ⊢
  have hop : ∀ {op : Op κ}, tape.callbacks.slotOf? n = some (op, 0) →
      g.emitOp slots n.operands op
          { tape with callbacks := tape.callbacks.withFunctionOf n } = .ok r →
        ∃ op v sources, tape.callbacks.slotOf? n = some (op, v) ∧
          g.operandSlots slots n.operands = .ok sources ∧
          r = (tape.size, { tape with
            callbacks := tape.callbacks.withFunctionOf n }.withSlot op v sources) := by
    intro op hslot h
    obtain ⟨sources, hsources, hr⟩ := emitOp_eq_ok h
    exact ⟨op, 0, sources, hslot, hsources, hr⟩
  cases n with
  | var name => cases h
  | const x =>
      obtain ⟨-, hr⟩ := Tape.pushSlot_eq_ok (mapError_eq_ok_iff.1 h)
      exact ⟨_, _, [], rfl, rfl, hr⟩
  | zero =>
      obtain ⟨-, hr⟩ := Tape.pushSlot_eq_ok (mapError_eq_ok_iff.1 h)
      exact ⟨_, _, [], rfl, rfl, hr⟩
  | unary f a =>
      dsimp only at h
      split at h
      · cases h
      · obtain ⟨rfl, rfl⟩ := Prod.mk.inj (Tape.registerUnary_eq_ok ‹_›)
        exact hop rfl h
  | binary f a b =>
      dsimp only at h
      split at h
      · cases h
      · obtain ⟨rfl, rfl⟩ := Prod.mk.inj (Tape.registerBinary_eq_ok ‹_›)
        exact hop rfl h
  | nary f ts =>
      dsimp only at h
      split at h
      · cases h
      · obtain ⟨rfl, rfl⟩ := Prod.mk.inj (Tape.registerNary_eq_ok ‹_›)
        exact hop rfl h
  | _ => exact hop rfl h

end Graph
end ReverseMode
