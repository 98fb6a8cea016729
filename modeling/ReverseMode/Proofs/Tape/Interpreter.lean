import Mathlib.Data.List.Forall2
import ReverseMode.Proofs.Tape.Equations
import ReverseMode.Tape.Interpreter

/-!
# Sweeps in place

An interpreter looks at the operation of a slot once for its value and once for value and weights,
in two passages that share nothing.  `Tape.opValue` and `Tape.opWeights` say what is to be computed;
here it is shown that both passages compute it, whatever the interpreter's lists hold.

**Argument.**  Along the edges of a slot an interpreter sees the values of earlier slots, and writing
weights does not change where they lead (`Leads`).  An operation with as many
edges as it takes is then executed step by step, one case per operation.

**Results.**
* `perform_nodeValue`, `perform_nodeValueAndWeights`: what becomes of one slot.
* `perform_forward`, `perform_forwardWithWeights`: the sweeps in place leave the tapes that
  `Tape.forward` and `Tape.forwardWithWeights` do.
-/

namespace ReverseMode
namespace Interpreter

variable {κ α : Type}
variable {m m' : Interpreter κ α}

section Actions

variable {β γ : Type}

/-- An action that ends well hands its result and its state on. -/
theorem perform_bind
    {x : Action κ α β} {b : β}
    (f : β → Action κ α γ)
    (h : m.perform x = (.ok b, m')) :
    m.perform (x >>= f) = m'.perform (f b) := by
  have hrun : x.run.run m = (Except.ok b, m') := h
  rw [perform, ExceptT.run_bind, StateT.run_bind, hrun]
  rfl

@[simp] theorem perform_pure (m : Interpreter κ α) (b : β) :
    m.perform (pure b : Action κ α β) = (.ok b, m) := by
  rfl

theorem perform_look
    {read : Tape κ α → Except (Fault κ) β} {b : β}
    (h : read m.tape = .ok b) :
    m.perform (look read) = (.ok b, m) := by
  change (read m.tape, m) = _
  rw [h]

theorem perform_change (m : Interpreter κ α) (write : Tape κ α → Tape κ α) :
    m.perform (change write) = (.ok (), { m with tape := write m.tape }) := by
  rfl

theorem perform_setWeight (m : Interpreter κ α) (p : Nat) (w : α) :
    m.perform (setWeight p w) = (.ok (), { m with tape := m.tape.setWeights p [w] }) := by
  rfl

theorem perform_setArguments (m : Interpreter κ α) (args : List α) :
    m.perform (setArguments args) = (.ok (), { m with arguments := args }) := by
  rfl

theorem perform_lentArguments (m : Interpreter κ α) :
    m.perform lentArguments = (.ok m.arguments, m) := by
  rfl

theorem perform_lentPartials (m : Interpreter κ α) :
    m.perform lentPartials = (.ok m.partials, m) := by
  rfl

variable [Scalar κ α]

theorem perform_writePartials (m : Interpreter κ α) (f : NaryFn α) (n : Nat) :
    m.perform (writePartials f n) =
      (.ok (), { m with partials := f.write m.arguments (List.replicate n 0) }) := by
  rfl

end Actions

section Operands

/-- Edges that lead to given values. -/
def Leads (t : Tape κ α) : List (Edge α) → List α → Prop :=
  List.Forall₂ fun e a => t.valueAt e.source = .ok a

/-- Writing weights does not change where edges lead. -/
theorem Leads.setWeights
    {t : Tape κ α} {edges : List (Edge α)} {args : List α}
    (h : Leads t edges args)
    (p : Nat) (ws : List α) :
    Leads (t.setWeights p ws) edges args := by
  refine List.Forall₂.imp (fun e a he => ?_) h
  rw [Tape.valueAt, Tape.slot, Tape.slots_setWeights]
  exact he

theorem perform_argument
    {edges : List (Edge α)} {args : List α} {k : Nat} {a : α}
    (h : Leads m.tape edges args)
    (ha : args[k]? = some a) :
    m.perform (argument edges k) = (.ok a, m) := by
  obtain ⟨hk, rfl⟩ := List.getElem?_eq_some_iff.1 ha
  have hk' : k < edges.length := h.length_eq ▸ hk
  rw [argument, List.getElem?_eq_getElem hk']
  exact perform_look (h.get hk' hk)

variable [Scalar κ α]

theorem leads_of_sound
    {t : Tape κ α} {i : Nat} {s : Slot κ α}
    (ht : t.Sound)
    (hs : t.slots[i]? = some s) :
    Leads t (t.edgeList s.inputs) ((t.sourcesIn s.inputs).map t.value) := by
  rw [Tape.sourcesIn, List.map_map, Leads, List.forall₂_map_right_iff, List.forall₂_same]
  intro e he
  have hearlier := (ht.slot hs).earlier e.source (List.mem_map_of_mem he)
  have hsize := Tape.lt_size_of_slot hs
  rw [Tape.valueAt_eq, if_pos (by omega)]
  rfl

/-- A missing second operand counts as 0. -/
theorem perform_secondArgument
    {edges : List (Edge α)} {args : List α}
    (h : Leads m.tape edges args) :
    m.perform (secondArgument edges) = (.ok (args.getD 1 0), m) := by
  rw [secondArgument, h.length_eq]
  split
  · rename_i hlt
    have hsome : args[1]? = some args[1] := List.getElem?_eq_getElem hlt
    rw [perform_argument h hsome, List.getD_eq_getElem?_getD, hsome]
    rfl
  · rename_i hge
    rw [perform_pure, List.getD_eq_getElem?_getD, List.getElem?_eq_none (by omega)]
    rfl

end Operands

section Loops

theorem perform_appendArguments
    {edges : List (Edge α)} {args : List α}
    (h : Leads m.tape edges args) :
    m.perform (appendArguments edges) = (.ok (), { m with arguments := m.arguments ++ args }) := by
  induction edges generalizing m args with
  | nil =>
      obtain rfl := List.forall₂_nil_left_iff.1 h
      rw [List.append_nil]
      rfl
  | cons e edges ih =>
      obtain ⟨a, rest, he, hrest, rfl⟩ := List.forall₂_cons_left_iff.1 h
      rw [appendArguments, perform_bind _ (perform_look he),
        perform_bind _ (perform_lentArguments m), perform_bind _ (perform_setArguments m _)]
      rw [ih (m := { m with arguments := m.arguments ++ [a] }) hrest]
      simp

theorem perform_copyArguments
    {edges : List (Edge α)} {args : List α}
    (h : Leads m.tape edges args) :
    m.perform (copyArguments edges) = (.ok (), { m with arguments := args }) := by
  rw [copyArguments, perform_bind _ (perform_setArguments m [])]
  exact perform_appendArguments (m := { m with arguments := [] }) h

theorem perform_copyWeights
    (m : Interpreter κ α) (p : Nat) (xs : List (Edge α × α)) :
    m.perform (copyWeights p xs) =
      (.ok (), { m with tape := m.tape.setWeights p (xs.map (·.2)) }) := by
  induction xs generalizing m p with
  | nil => rfl
  | cons x xs ih =>
      rw [copyWeights, perform_bind _ (perform_setWeight m p x.2), ih]
      rfl

variable [Scalar κ α]

theorem perform_addUp
    {edges : List (Edge α)} {args : List α}
    (h : Leads m.tape edges args)
    (acc : α) :
    m.perform (addUp edges acc) = (.ok (args.foldl (· + ·) acc), m) := by
  induction h generalizing acc with
  | nil => rfl
  | cons he _ ih => rw [addUp, perform_bind _ (perform_look he), ih, List.foldl_cons]

theorem perform_addUpWeighted
    {edges : List (Edge α)} {args : List α}
    (h : Leads m.tape edges args)
    (p : Nat) (acc : α) :
    m.perform (addUpWeighted p edges acc) =
      (.ok (args.foldl (· + ·) acc),
        { m with tape := m.tape.setWeights p (args.map fun _ => 1) }) := by
  induction edges generalizing m args p acc with
  | nil =>
      obtain rfl := List.forall₂_nil_left_iff.1 h
      rfl
  | cons e edges ih =>
      obtain ⟨a, rest, he, hrest, rfl⟩ := List.forall₂_cons_left_iff.1 h
      rw [addUpWeighted, perform_bind _ (perform_look he), perform_bind _ (perform_setWeight m p 1)]
      rw [ih (m := { m with tape := m.tape.setWeights p [1] }) (Leads.setWeights hrest p [1])]
      rfl

end Loops

section Nodes

variable {i : Nat} {s : Slot κ α} {edges : List (Edge α)} {args : List α} {x : α}

theorem setWeights_pair (t : Tape κ α) (p : Nat) (a b : α) :
    (t.setWeights p [a]).setWeights (p + 1) [b] = t.setWeights p [a, b] := by
  rfl

variable [Exponent κ] [Scalar κ α]

/-- The value of an operation with a rule. -/
theorem perform_ruleValue
    {op : Op κ} {a : α}
    (h : Leads m.tape edges args)
    (ha : args[0]? = some a)
    (hx : Rule.value op a (args.getD 1 0) = .ok x) :
    m.perform (do
        let b ← secondArgument edges
        let a ← argument edges 0
        look fun _ => Rule.value op a b) = (.ok x, m) := by
  rw [perform_bind _ (perform_secondArgument h), perform_bind _ (perform_argument h ha)]
  exact perform_look hx

/-- The value of a slot is that of its operation at the values that its edges lead to. -/
theorem perform_nodeValue
    (hs : m.tape.slots[i]? = some s)
    (hedges : m.tape.edgesIn s.inputs = .ok edges)
    (h : Leads m.tape edges args)
    (hover : s.op.Over args)
    (hx : m.tape.opValue s.op s.value args = .ok x) :
    ∃ m', m.perform (nodeValue i) = (.ok x, m') ∧ m'.tape = m.tape := by
  rw [nodeValue, perform_bind _ (perform_look (Tape.slot_eq_ok hs)),
    perform_bind _ (perform_look hedges)]
  cases hop : s.op <;> rw [hop] at hover hx
  case input | const =>
    obtain rfl := Except.ok.inj hx
    exact ⟨m, rfl, rfl⟩
  case sum =>
    obtain rfl := Except.ok.inj hx
    exact ⟨m, perform_addUp h 0, rfl⟩
  case unary n =>
    obtain ⟨f, hf, hx⟩ := bind_eq_ok_iff.1 hx
    cases hover with
    | unary _ a =>
        obtain rfl := Except.ok.inj hx
        refine ⟨m, ?_, rfl⟩
        rw [perform_bind _ (perform_look hf), perform_bind _ (perform_argument h rfl)]
        rfl
  case binary n =>
    obtain ⟨f, hf, hx⟩ := bind_eq_ok_iff.1 hx
    cases hover with
    | binary _ a b =>
        obtain rfl := Except.ok.inj hx
        refine ⟨m, ?_, rfl⟩
        rw [perform_bind _ (perform_look hf), perform_bind _ (perform_argument h rfl),
          perform_bind _ (perform_argument h rfl)]
        rfl
  case nary n =>
    obtain ⟨f, hf, hx⟩ := bind_eq_ok_iff.1 hx
    obtain rfl := Except.ok.inj hx
    refine ⟨{ m with arguments := args }, ?_, rfl⟩
    rw [perform_bind _ (perform_copyArguments h), perform_bind _ (perform_look hf)]
    rfl
  all_goals
    cases hover
    exact ⟨m, perform_ruleValue h rfl hx, rfl⟩

/-- The value and the partials of an operation with a rule.  The second partial is written where
there is a second edge. -/
theorem perform_rulePartials
    {op : Op κ} {a : α} {d : α × α}
    (h : Leads m.tape edges args)
    (ha : args[0]? = some a)
    (hlen : args.length ≤ 2)
    (hx : Rule.value op a (args.getD 1 0) = .ok x)
    (hd : Rule.partials op a (args.getD 1 0) x = .ok d)
    (p : Nat) :
    m.perform (do
        let a ← argument edges 0
        let b ← secondArgument edges
        let r ← look fun _ => Rule.value op a b
        let d ← look fun _ => Rule.partials op a b r
        setWeight p d.1
        if 1 < edges.length then setWeight (p + 1) d.2
        pure r) =
      (.ok x, { m with tape := m.tape.setWeights p ([d.1, d.2].take args.length) }) := by
  rw [perform_bind _ (perform_argument h ha), perform_bind _ (perform_secondArgument h),
    perform_bind _ (perform_look hx), perform_bind _ (perform_look hd),
    perform_bind _ (perform_setWeight m p d.1), h.length_eq]
  obtain ⟨hpos, -⟩ := List.getElem?_eq_some_iff.1 ha
  by_cases htwo : 1 < args.length
  · rw [if_pos htwo, perform_bind _ (perform_setWeight _ (p + 1) d.2), setWeights_pair,
      show args.length = 2 by omega]
    rfl
  · rw [if_neg htwo, show args.length = 1 by omega]
    rfl

omit [Exponent κ] in
/-- A function of any number of arguments writes its partials to a list of zeros, from which they
are copied to the edges. -/
theorem perform_naryPartials
    (h : Leads m.tape edges args)
    (f : NaryFn α) (p : Nat) :
    m.perform (do
        copyArguments edges
        writePartials f edges.length
        copyWeights p (edges.zip (← lentPartials))
        let args ← lentArguments
        pure (f.eval args)) =
      (.ok (f.eval args),
        { tape := m.tape.setWeights p (f.gradient args)
          arguments := args
          partials := f.gradient args }) := by
  have hcopied := perform_copyWeights ({ m with arguments := args, partials := f.gradient args }) p
    (edges.zip (f.gradient args))
  rw [List.map_snd_zip (by simp [h.length_eq])] at hcopied
  rw [perform_bind _ (perform_copyArguments h), h.length_eq,
    perform_bind _ (perform_writePartials _ f args.length), perform_bind _ (perform_lentPartials _)]
  exact perform_bind _ hcopied

/-- The weights written are the partials of the operation, and the value is what it is without
them. -/
theorem perform_nodeValueAndWeights
    {ws : List α}
    (hs : m.tape.slots[i]? = some s)
    (hedges : m.tape.edgesIn s.inputs = .ok edges)
    (h : Leads m.tape edges args)
    (hover : s.op.Over args)
    (hx : m.tape.opValue s.op s.value args = .ok x)
    (hws : m.tape.opWeights s.op args x = .ok ws) :
    ∃ m', m.perform (nodeValueAndWeights i) = (.ok x, m') ∧
      m'.tape = m.tape.setWeights s.inputs.start ws := by
  rw [nodeValueAndWeights, perform_bind _ (perform_look (Tape.slot_eq_ok hs)),
    perform_bind _ (perform_look hedges)]
  cases hop : s.op <;> rw [hop] at hover hx hws
  case input | const =>
    obtain rfl := Except.ok.inj hx
    obtain rfl := Except.ok.inj hws
    exact ⟨m, rfl, rfl⟩
  case sum =>
    obtain rfl := Except.ok.inj hx
    obtain rfl := Except.ok.inj hws
    exact ⟨_, perform_addUpWeighted h _ 0, rfl⟩
  case unary n =>
    cases hover with
    | unary _ a =>
        obtain ⟨f, hf, hval, hpart⟩ := exists_of_binds_eq_ok hx hws
        obtain rfl := Except.ok.inj hval
        obtain rfl := Except.ok.inj hpart
        rw [perform_bind _ (perform_look hf), perform_bind _ (perform_argument h rfl),
          perform_bind _ (perform_setWeight m _ _)]
        exact ⟨_, rfl, rfl⟩
  case binary n =>
    cases hover with
    | binary _ a b =>
        obtain ⟨f, hf, hval, hpart⟩ := exists_of_binds_eq_ok hx hws
        obtain rfl := Except.ok.inj hval
        obtain rfl := Except.ok.inj hpart
        rw [perform_bind _ (perform_look hf), perform_bind _ (perform_argument h rfl),
          perform_bind _ (perform_argument h rfl), perform_bind _ (perform_setWeight m _ _),
          perform_bind _ (perform_setWeight _ _ _), setWeights_pair]
        exact ⟨_, rfl, rfl⟩
  case nary n =>
    obtain ⟨f, hf, hval, hpart⟩ := exists_of_binds_eq_ok hx hws
    obtain rfl := Except.ok.inj hval
    obtain rfl := Except.ok.inj hpart
    rw [perform_bind _ (perform_look hf)]
    exact ⟨_, perform_naryPartials h f _, rfl⟩
  -- The operations that are left have a rule, with one operand or two.
  all_goals
    cases hover
    obtain ⟨_, hfirst, hrest⟩ := bind_eq_ok_iff.1 hws
    obtain rfl := Except.ok.inj hfirst
    obtain ⟨d, hd, hpart⟩ := bind_eq_ok_iff.1 hrest
    obtain rfl := Except.ok.inj hpart
    refine ⟨_, perform_rulePartials h rfl ?_ ?_ ?_ _, rfl⟩
    · simp
    · exact hx
    · exact hd

/-- On a sound tape, what `computedValue` reads is the value of the slot. -/
theorem perform_nodeValue_of_sound
    (ht : m.tape.Sound)
    (hx : m.tape.computedValue i = .ok x) :
    ∃ m', m.perform (nodeValue i) = (.ok x, m') ∧ m'.tape = m.tape := by
  obtain ⟨s, hslot, hx⟩ := bind_eq_ok_iff.1 hx
  obtain ⟨args, hargs, hx⟩ := bind_eq_ok_iff.1 hx
  have hs := Tape.slot_eq_ok_iff.1 hslot
  obtain rfl := Except.ok.inj ((Tape.operandValues_eq_ok ht hs).symm.trans hargs)
  have hsound := ht.slot hs
  exact perform_nodeValue hs (Tape.edgesIn_eq_ok hsound.window) (leads_of_sound ht hs)
    (hsound.applied.map m.tape.value) hx

/-- On a sound tape, what `computedPartials` reads are the value of the slot and the weights. -/
theorem perform_nodeValueAndWeights_of_sound
    {computed : α × List α}
    (ht : m.tape.Sound)
    (h : m.tape.computedPartials i = .ok computed) :
    ∃ m', m.perform (nodeValueAndWeights i) = (.ok computed.1, m') ∧
      m'.tape.setValue i computed.1 = m.tape.setPartials i computed := by
  obtain ⟨s, hslot, h⟩ := bind_eq_ok_iff.1 h
  obtain ⟨args, hargs, h⟩ := bind_eq_ok_iff.1 h
  obtain ⟨x, hx, h⟩ := bind_eq_ok_iff.1 h
  obtain ⟨ws, hws, h⟩ := bind_eq_ok_iff.1 h
  obtain rfl : (x, ws) = computed := Except.ok.inj h
  have hs := Tape.slot_eq_ok_iff.1 hslot
  obtain rfl := Except.ok.inj ((Tape.operandValues_eq_ok ht hs).symm.trans hargs)
  have hsound := ht.slot hs
  obtain ⟨m', hm', htape⟩ := perform_nodeValueAndWeights hs (Tape.edgesIn_eq_ok hsound.window)
    (leads_of_sound ht hs) (hsound.applied.map m.tape.value) hx hws
  refine ⟨m', hm', ?_⟩
  rw [htape, Tape.setPartials_eq _ hs]

end Nodes

section Sweeps

variable {u : Tape κ α} {point : List α}

/-- Slots that are written one after another, each as a sweep of the tape writes it. -/
theorem perform_writeSlots
    {γ : Type} {node : Nat → Action κ α α}
    {read : Tape κ α → Nat → Except (Fault κ) γ} {write : Tape κ α → Nat → γ → Tape κ α}
    {places : List Nat}
    (hnode : ∀ (m : Interpreter κ α) i c, m.tape.Sound → read m.tape i = .ok c →
      ∃ x m', m.perform (node i) = (.ok x, m') ∧ m'.tape.setValue i x = write m.tape i c ∧
        (write m.tape i c).Sound)
    (ht : m.tape.Sound)
    (h : sweep read write places m.tape = (.ok (), u)) :
    ∃ m', m.perform (writeSlots node places) = (.ok (), m') ∧ m'.tape = u := by
  induction places generalizing m with
  | nil => exact ⟨m, rfl, congrArg Prod.snd h⟩
  | cons i rest ih =>
      cases hr : read m.tape i with
      | error e =>
          rw [sweep_cons_error rest hr] at h
          cases h
      | ok c =>
          rw [sweep_cons_ok rest hr] at h
          obtain ⟨x, m₁, hm₁, htape, hsound⟩ := hnode m i c ht hr
          rw [← htape] at h hsound
          rw [writeSlots, perform_bind _ hm₁, perform_bind _ (perform_change m₁ _)]
          exact ih (m := { m₁ with tape := m₁.tape.setValue i x }) hsound h

/-- A point that fits is loaded before the slots are written. -/
theorem perform_forwardBy
    (node : Nat → Action κ α α)
    (hp : point.length = m.tape.dimension) :
    m.perform (forwardBy node point) =
      ({ m with tape := m.tape.setPoint point } : Interpreter κ α).perform
        (writeSlots node m.tape.computed) := by
  let loaded : Interpreter κ α := { m with tape := m.tape.setPoint point }
  have hplaces : loaded.perform (look fun t => .ok t.computed) =
      (.ok loaded.tape.computed, loaded) := perform_look rfl
  rw [forwardBy, perform_bind _ (perform_look (if_pos hp)),
    perform_bind _ (perform_change m _), perform_bind _ hplaces, Tape.computed_setPoint]

variable [Exponent κ] [Scalar κ α]

/-- The sweep for values leaves the tape that `Tape.forward` does. -/
theorem perform_forward
    (ht : m.tape.Sound)
    (hp : point.length = m.tape.dimension)
    (h : m.tape.forward point = (.ok (), u)) :
    ∃ m', m.perform (forward point) = (.ok (), m') ∧ m'.tape = u := by
  rw [Tape.forward_eq hp] at h
  rw [forward, perform_forwardBy nodeValue hp]
  refine perform_writeSlots ?_ (ht.of_fresh_eq (ht.fresh_setPoint hp).symm) h
  intro m i x hm hx
  obtain ⟨m', hm', htape⟩ := perform_nodeValue_of_sound hm hx
  have hfresh : (m.tape.setValue i x).fresh = m.tape.fresh :=
    Tape.fresh_setValue m.tape fun s hs hc => Tape.computedValue_const hx hs hc
  exact ⟨x, m', hm', by rw [htape], hm.of_fresh_eq hfresh.symm⟩

/-- The sweep for values and weights leaves the tape that `Tape.forwardWithWeights` does. -/
theorem perform_forwardWithWeights
    (ht : m.tape.Sound)
    (hp : point.length = m.tape.dimension)
    (h : m.tape.forwardWithWeights point = (.ok (), u)) :
    ∃ m', m.perform (forwardWithWeights point) = (.ok (), m') ∧ m'.tape = u := by
  rw [Tape.forwardWithWeights_eq hp] at h
  rw [forwardWithWeights, perform_forwardBy nodeValueAndWeights hp]
  refine perform_writeSlots ?_ (ht.of_fresh_eq (ht.fresh_setPoint hp).symm) h
  intro m i computed hm hc
  obtain ⟨m', hm', htape⟩ := perform_nodeValueAndWeights_of_sound hm hc
  have hval := Tape.computedValue_of_computedPartials hc
  have hfresh : (m.tape.setPartials i computed).fresh = m.tape.fresh :=
    Tape.fresh_setPartials m.tape fun s hs hc => Tape.computedValue_const hval hs hc
  exact ⟨computed.1, m', hm', htape, hm.of_fresh_eq hfresh.symm⟩

end Sweeps
end Interpreter
end ReverseMode
