import ReverseMode.Compiled.Buffer
import ReverseMode.Proofs.Compiled.Safety

/-!
# Calls with lists of any lengths

**Input.**  Whatever was made from a term or from a tape that a caller can come to hold, after any
use; a point and a buffer for the gradient of any lengths.

**Argument.**  A compiled term looks at both lengths before it runs its engine, so a wrong length
costs nothing but the message.  After that the engine looks at them again.  The dimension that it
compares with is the one that the compiled term has compared with, since the plan of the tape fixes
both and no call changes the plan.  What is left to go wrong is a function that is called but was
never registered, on a tape put together by hand.

**Results.**
* `Tape.bounded_computedPartials`: a forward sweep fails for an index past a table only, no matter
  on which tape.
* `Of.differentiateInto_eq`: the buffer receives the gradient that is returned without a buffer.
* `calls_check_lengths`: what calls return, leave in the buffer and leave behind.
-/

namespace ReverseMode

variable {κ α : Type}

/-- A computation that nothing but an index past a table can keep from a result. -/
abbrev Bounded {β : Type} (x : Except (Fault κ) β) : Prop :=
  FailsOnly (· = .outOfBounds) x

namespace Tape

section Reads

variable (t : Tape κ α)

theorem bounded_slot (i : Nat) : Bounded (t.slot i) := by
  rw [slot]
  split
  · exact failsOnly_ok _
  · exact failsOnly_error rfl

theorem bounded_edgesIn (w : Window) : Bounded (t.edgesIn w) := by
  rw [edgesIn]
  split
  · exact failsOnly_ok _
  · exact failsOnly_error rfl

theorem bounded_unaryFn (h : Nat) : Bounded (t.unaryFn h) := by
  rw [unaryFn]
  split
  · exact failsOnly_ok _
  · exact failsOnly_error rfl

theorem bounded_binaryFn (h : Nat) : Bounded (t.binaryFn h) := by
  rw [binaryFn]
  split
  · exact failsOnly_ok _
  · exact failsOnly_error rfl

theorem bounded_naryFn (h : Nat) : Bounded (t.naryFn h) := by
  rw [naryFn]
  split
  · exact failsOnly_ok _
  · exact failsOnly_error rfl

theorem bounded_operand (args : List α) (k : Nat) :
    Bounded (operand args k : Except (Fault κ) α) := by
  rw [operand]
  split
  · exact failsOnly_ok _
  · exact failsOnly_error rfl

variable [Scalar κ α]

theorem bounded_valueAt (i : Nat) : Bounded (t.valueAt i) := by
  rw [valueAt_eq]
  split
  · exact failsOnly_ok _
  · exact failsOnly_error rfl

theorem bounded_operandValues (i : Nat) : Bounded (t.operandValues i) :=
  failsOnly_bind (failsOnly_bind (t.bounded_slot i) fun s => t.bounded_edgesIn s.inputs)
    fun _ => failsOnly_mapM fun e => t.bounded_valueAt e.source

variable [Exponent κ]

/-- The rules that the interpreted engine asks for have a result for all operands. -/
theorem bounded_opValue (op : Op κ) (stored : α) (args : List α) :
    Bounded (t.opValue op stored args) := by
  cases op with
  | input | const | sum => exact failsOnly_ok _
  | unary h =>
      exact failsOnly_bind (t.bounded_unaryFn h) fun f =>
        failsOnly_bind (bounded_operand args 0) fun a => failsOnly_ok _
  | binary h =>
      exact failsOnly_bind (t.bounded_binaryFn h) fun f =>
        failsOnly_bind (bounded_operand args 0) fun a =>
          failsOnly_bind (bounded_operand args 1) fun b => failsOnly_ok _
  | nary h => exact failsOnly_bind (t.bounded_naryFn h) fun f => failsOnly_ok _
  | _ => exact failsOnly_bind (bounded_operand args 0) fun a => failsOnly_ok _

theorem bounded_opWeights (op : Op κ) (args : List α) (r : α) :
    Bounded (t.opWeights op args r) := by
  cases op with
  | input | const | sum => exact failsOnly_ok _
  | unary h =>
      exact failsOnly_bind (t.bounded_unaryFn h) fun f =>
        failsOnly_bind (bounded_operand args 0) fun a => failsOnly_ok _
  | binary h =>
      exact failsOnly_bind (t.bounded_binaryFn h) fun f =>
        failsOnly_bind (bounded_operand args 0) fun a =>
          failsOnly_bind (bounded_operand args 1) fun b => failsOnly_ok _
  | nary h => exact failsOnly_bind (t.bounded_naryFn h) fun f => failsOnly_ok _
  | _ =>
      exact failsOnly_bind (bounded_operand args 0) fun a =>
        failsOnly_bind (failsOnly_ok _) fun p => failsOnly_ok _

theorem bounded_computedValue (i : Nat) : Bounded (t.computedValue i) :=
  failsOnly_bind (t.bounded_slot i) fun s =>
    failsOnly_bind (t.bounded_operandValues i) fun args => t.bounded_opValue s.op s.value args

theorem bounded_computedPartials (i : Nat) : Bounded (t.computedPartials i) :=
  failsOnly_bind (t.bounded_slot i) fun s =>
    failsOnly_bind (t.bounded_operandValues i) fun args =>
      failsOnly_bind (t.bounded_opValue s.op s.value args) fun r =>
        failsOnly_bind (t.bounded_opWeights s.op args r) fun ws => failsOnly_ok (r, ws)

end Reads

section Sweeps

variable [Exponent κ] [Scalar κ α] {t : Tape κ α} {point : List α}

theorem bounded_forward
    (hp : point.length = t.dimension) :
    Bounded (t.forward point).1 := by
  rw [forward_eq hp]
  exact failsOnly_sweep (fun t => t.bounded_computedValue) t.computed (t.setPoint point)

theorem bounded_forwardWithWeights
    (hp : point.length = t.dimension) :
    Bounded (t.forwardWithWeights point).1 := by
  rw [forwardWithWeights_eq hp]
  exact failsOnly_sweep (fun t => t.bounded_computedPartials) t.computed (t.setPoint point)

theorem bounded_evaluate
    (ht : t.Sound)
    (hpos : 0 < t.size)
    (hp : point.length = t.dimension) :
    Bounded (t.evaluate point).1 := by
  have hforward := bounded_forward hp
  have hfresh := fresh_forward ht point
  rw [evaluate]
  rcases hu : t.forward point with ⟨o, u⟩
  rw [hu] at hforward hfresh
  cases o with
  | error e => exact failsOnly_error (hforward e rfl)
  | ok _ =>
      have hsize : u.size = t.size := size_of_fresh_eq hfresh
      show Bounded u.outputValue
      rw [outputValue_eq (by omega)]
      exact failsOnly_ok _

theorem bounded_differentiate
    (ht : t.Sound)
    (hpos : 0 < t.size)
    (hp : point.length = t.dimension) :
    Bounded (t.differentiate point t.dimension).1 := by
  have hforward := bounded_forwardWithWeights hp
  have hfresh := fresh_forwardWithWeights ht point
  rw [differentiate, if_pos rfl]
  rcases hu : t.forwardWithWeights point with ⟨o, u⟩
  rw [hu] at hforward hfresh
  cases o with
  | error e => exact failsOnly_error (hforward e rfl)
  | ok _ =>
      obtain ⟨w, hw, hwfresh, -⟩ := reverse_spec (ht.of_fresh_eq hfresh.symm)
      have hsize := size_of_fresh_eq (hwfresh.trans hfresh)
      simp only [hw, outputValue_eq (t := w) (by omega), map_ok]
      exact failsOnly_ok _

/-- A gradient that differentiating returns has a component for each variable. -/
theorem Sound.length_of_differentiate
    {room : Nat} {x : α} {components : List α}
    (ht : t.Sound)
    (h : (t.differentiate point room).1 = .ok (x, components)) :
    components.length = t.dimension := by
  have hfresh := fresh_forwardWithWeights ht point
  rw [differentiate] at h
  split at h
  · rcases hu : t.forwardWithWeights point with ⟨o, u⟩
    rw [hu] at h hfresh
    cases o with
    | error e => cases h
    | ok _ =>
        obtain ⟨w, hw, hwfresh, -⟩ := reverse_spec (ht.of_fresh_eq hfresh.symm)
        have hsize := size_of_fresh_eq (hwfresh.trans hfresh)
        have hdim := dimension_of_fresh_eq (hwfresh.trans hfresh)
        have hle := ht.dimension_le
        simp only [hw] at h
        obtain ⟨y, -, heq⟩ := map_eq_ok_iff.1 h
        obtain ⟨-, rfl⟩ := Prod.mk.inj heq
        rw [gradient_eq (by omega), List.length_map, List.length_range, hdim]
  · cases h

end Sweeps

section Completion

variable {ε δ β γ : Type} {t : Tape κ α} {e : ε} {x : Except ε β}

/-- A computation that has a result unless a function that the tape calls is not registered; then
it may end with an error. -/
def Completes (t : Tape κ α) (e : ε) (x : Except ε β) : Prop :=
  (∃ b, x = .ok b) ∨ ¬t.HandlesRegistered ∧ x = .error e

theorem completes_of_bounded
    {x : Except (Fault κ) β}
    (hok : t.HandlesRegistered → ∃ b, x = .ok b)
    (h : Bounded x) :
    t.Completes .outOfBounds x := by
  by_cases hreg : t.HandlesRegistered
  · exact .inl (hok hreg)
  · cases x with
    | ok b => exact .inl ⟨b, rfl⟩
    | error f => exact .inr ⟨hreg, congrArg Except.error (h f rfl)⟩

theorem Completes.mapError
    (h : t.Completes e x)
    (f : ε → δ) :
    t.Completes (f e) (x.mapError f) := by
  rcases h with ⟨b, rfl⟩ | ⟨hreg, rfl⟩
  · exact .inl ⟨b, rfl⟩
  · exact .inr ⟨hreg, rfl⟩

theorem Completes.map
    (h : t.Completes e x)
    (f : β → γ) :
    t.Completes e (x.map f) := by
  rcases h with ⟨b, rfl⟩ | ⟨hreg, rfl⟩
  · exact .inl ⟨f b, rfl⟩
  · exact .inr ⟨hreg, rfl⟩

variable [Exponent κ] [Scalar κ α] {point : List α}

theorem Sound.completes_evaluate
    (ht : t.Sound)
    (hpos : 0 < t.size)
    (hp : point.length = t.dimension) :
    t.Completes .outOfBounds (t.evaluate point).1 :=
  completes_of_bounded (fun hreg => (ht.safe hreg hpos).evaluate point hp)
    (bounded_evaluate ht hpos hp)

theorem Sound.completes_differentiate
    (ht : t.Sound)
    (hpos : 0 < t.size)
    (hp : point.length = t.dimension) :
    t.Completes .outOfBounds (t.differentiate point t.dimension).1 := by
  refine completes_of_bounded (fun hreg => ?_) (bounded_differentiate ht hpos hp)
  obtain ⟨x, gradient, hx, -⟩ := (ht.safe hreg hpos).differentiate point hp
  exact ⟨(x, gradient), hx⟩

end Completion
end Tape

section Buffers

variable {ε σ : Type}

/-- A result and a state with the gradient written to a buffer, which a failure leaves alone. -/
def delivered (buffer : List α) : Except ε (α × List α) × σ → Except ε α × List α × σ
  | (.ok (x, gradient), s) => (.ok x, gradient, s)
  | (.error e, s) => (.error e, buffer, s)

theorem delivered_fst (buffer : List α) (r : Except ε (α × List α) × σ) :
    (delivered buffer r).1 = r.1.map Prod.fst := by
  rcases r with ⟨_ | _, s⟩ <;> rfl

theorem overwriteLeading_eq_take
    {buffer values : List α}
    (h : buffer.length ≤ values.length) :
    overwriteLeading buffer values = values.take buffer.length := by
  rw [overwriteLeading, List.drop_of_length_le h, List.append_nil]

variable [Exponent κ] [Scalar κ α]

/-- The interpreted engine writes the gradient to a buffer that has the length of one. -/
theorem Tape.differentiateInto_eq
    {t : Tape κ α}
    (ht : t.Sound)
    (hpos : 0 < t.size)
    (point buffer : List α) :
    t.differentiateInto point buffer =
      delivered buffer (t.differentiate point buffer.length) := by
  rw [differentiateInto, differentiate]
  by_cases hlen : buffer.length = t.dimension
  · rw [if_pos hlen, if_pos hlen]
    have hfresh := fresh_forwardWithWeights ht point
    rcases hu : t.forwardWithWeights point with ⟨o, u⟩
    rw [hu] at hfresh
    cases o with
    | error e => rfl
    | ok _ =>
        obtain ⟨w, hw, hwfresh, -⟩ := reverse_spec (ht.of_fresh_eq hfresh.symm)
        have hsize := size_of_fresh_eq (hwfresh.trans hfresh)
        have hdim := dimension_of_fresh_eq (hwfresh.trans hfresh)
        have hle := ht.dimension_le
        have hadjoints : overwriteLeading buffer (w.slots.toList.map (·.adjoint)) = w.gradient := by
          rw [size] at hsize
          rw [overwriteLeading_eq_take (by simp; omega), hlen, ← hdim, gradient]
          simp [List.extract_eq_take_drop]
        simp only [hw, outputValue_eq (t := w) (by omega), map_ok, hadjoints]
        rfl
  · rw [if_neg hlen, if_neg hlen]
    rfl

/-- The generated engine copies the gradient to a buffer that has the length of one. -/
theorem Program.Of.differentiateInto_eq
    {t : Tape κ α} {p : Program κ α}
    (ht : t.Sound)
    (hp : Program.Of t p)
    (point buffer : List α) :
    p.differentiateInto point buffer =
      delivered buffer (p.differentiate point buffer.length) := by
  rw [Program.differentiateInto, Program.differentiate]
  by_cases hlen : buffer.length = p.dimension
  · rw [if_pos hlen, if_pos hlen]
    rcases hrun : p.runValues point with ⟨o, q⟩
    have hq : Program.Of t q := by simpa only [hrun] using hp.runValues ht point
    cases o with
    | error e => rfl
    | ok _ =>
        rcases hback : q.runDerivatives with ⟨o, w⟩
        have hw : Program.Of t w := by simpa only [hback] using hq.runDerivatives
        simp only [hback]
        cases o with
        | error e => rfl
        | ok _ =>
            have hdiffs := hw.registers.diffs
            have hdim := hw.dimension
            have hdim' := hp.dimension
            have hle := ht.dimension_le
            have hgradient : w.gradient.length = buffer.length := by
              simp only [Program.gradient, Array.length_toList, Array.size_extract]
              omega
            simp only [if_pos hgradient]
            rw [if_pos (by omega)]
            rfl
  · rw [if_neg hlen, if_neg hlen]
    rfl

end Buffers

namespace CompiledTerm

variable [Exponent κ] [Scalar κ α] {t : Tape κ α} {c : CompiledTerm κ α} {point buffer : List α}

section Defs

/-- A compiled term whose calls look at the lengths of their lists first, the point before the
buffer.  A wrong length is reported with the one expected, and leaves buffer and compiled term as
they are.  Where the lengths are right there is a result, unless functions are missing, and the
buffer receives one component for each variable, whatever it held. -/
structure ChecksLengths (c : CompiledTerm κ α) : Prop where
  /-- Compiled term and program compare with one dimension. -/
  program : ∀ p, c.executor = .generated p → p.dimension = c.tape.dimension
  evaluate_refused : ∀ point, point.length ≠ c.dimension →
    c.evaluate point = (.error (.argument (.lengthMismatch .point c.dimension point.length)), c)
  gradient_refused : ∀ point, point.length ≠ c.dimension →
    c.gradient point = (.error (.argument (.lengthMismatch .point c.dimension point.length)), c)
  point_refused : ∀ point buffer, point.length ≠ c.dimension →
    c.differentiateInto point buffer =
      (.error (.argument (.lengthMismatch .point c.dimension point.length)), buffer, c)
  buffer_refused : ∀ point buffer, point.length = c.dimension → buffer.length ≠ c.dimension →
    c.differentiateInto point buffer =
      (.error (.argument (.lengthMismatch .gradient c.dimension buffer.length)), buffer, c)
  evaluate : ∀ point, point.length = c.dimension →
    c.tape.Completes (.fault .outOfBounds) (c.evaluate point).1
  gradient : ∀ point, point.length = c.dimension →
    c.tape.Completes (.fault .outOfBounds) (c.gradient point).1 ∧
      ∀ x components, (c.gradient point).1 = .ok (x, components) →
        components.length = c.dimension
  differentiate : ∀ point buffer, point.length = c.dimension → buffer.length = c.dimension →
    c.tape.Completes (.fault .outOfBounds) (c.differentiateInto point buffer).1 ∧
      c.differentiateInto point buffer = delivered buffer (c.gradient point)

end Defs

section Sources

theorem Source.Gives.size_pos
    {src : Source κ α} {vs : List Nat}
    (h : src.Gives t vs) :
    0 < t.size := by
  cases src with
  | term g root us =>
      obtain ⟨l, hl, rfl, -⟩ := h
      exact Graph.size_pos_of_ofTerm hl
  | tape u us =>
      obtain ⟨-, hempty, rfl, -⟩ := h
      simpa [Tape.isEmpty, Tape.size, Nat.pos_iff_ne_zero] using hempty

end Sources

section Calls

/-- A buffer receives the gradient that is returned without one. -/
theorem Of.differentiateInto_eq
    (ht : t.Sound)
    (hpos : 0 < t.size)
    (h : Of t c)
    (point buffer : List α) :
    c.differentiateInto point buffer =
      delivered buffer (c.differentiate point buffer.length) := by
  unfold CompiledTerm.differentiateInto CompiledTerm.differentiate
  cases (Slice.point.check c.dimension point.length : Except (ArgumentError κ) Unit) with
  | error e => rfl
  | ok _ =>
      cases (Slice.gradient.check c.dimension buffer.length : Except (ArgumentError κ) Unit) with
      | error e => rfl
      | ok _ =>
          obtain ⟨tape, vs, executor⟩ := c
          cases executor with
          | interpreted =>
              have hsize : tape.size = t.size := Tape.size_of_fresh_eq h.fresh
              have hsound : tape.Sound := ht.of_fresh_eq h.fresh.symm
              simp only [Tape.differentiateInto_eq hsound (by omega)]
              rcases tape.differentiate point buffer.length with ⟨_ | ⟨x, g⟩, u⟩ <;> rfl
          | generated p =>
              simp only [(h.program p rfl).differentiateInto_eq ht]
              rcases p.differentiate point buffer.length with ⟨_ | ⟨x, g⟩, q⟩ <;> rfl

theorem Of.completes_evaluate
    (ht : t.Sound)
    (hpos : 0 < t.size)
    (h : Of t c)
    (hlen : point.length = c.dimension) :
    c.tape.Completes (.fault .outOfBounds) (c.evaluate point).1 := by
  cases hc : c.executor with
  | interpreted =>
      have hsize : c.tape.size = t.size := Tape.size_of_fresh_eq h.fresh
      have hsound : c.tape.Sound := ht.of_fresh_eq h.fresh.symm
      rw [evaluate_interpreted hc hlen]
      exact (hsound.completes_evaluate (by omega) hlen).mapError Error.fault
  | generated p =>
      rw [evaluate_generated hc hlen]
      have hof := h.program p hc
      have hdim : p.dimension = c.dimension := hof.dimension.trans h.dimension.symm
      obtain ⟨x, hx⟩ := (hof.safe ht).evaluate point (hlen.trans hdim.symm)
      exact .inl ⟨x, congrArg (Except.mapError Error.fault) hx⟩

theorem Of.completes_gradient
    (ht : t.Sound)
    (hpos : 0 < t.size)
    (h : Of t c)
    (hlen : point.length = c.dimension) :
    c.tape.Completes (.fault .outOfBounds) (c.gradient point).1 ∧
      ∀ x components, (c.gradient point).1 = .ok (x, components) →
        components.length = c.dimension := by
  rw [gradient]
  cases hc : c.executor with
  | interpreted =>
      have hsize : c.tape.size = t.size := Tape.size_of_fresh_eq h.fresh
      have hsound : c.tape.Sound := ht.of_fresh_eq h.fresh.symm
      rw [differentiate_interpreted hc hlen rfl]
      refine ⟨(hsound.completes_differentiate (by omega) hlen).mapError Error.fault, ?_⟩
      exact fun x components hx => hsound.length_of_differentiate (mapError_eq_ok_iff.1 hx)
  | generated p =>
      rw [differentiate_generated hc hlen rfl]
      have hof := h.program p hc
      have hdim : p.dimension = c.dimension := hof.dimension.trans h.dimension.symm
      obtain ⟨x, g, hx, hlength⟩ := (hof.safe ht).differentiate point (hlen.trans hdim.symm)
      rw [hdim] at hx hlength
      have hout : ((p.differentiate point c.dimension).1.mapError Error.fault) = .ok (x, g) :=
        mapError_eq_ok_iff.2 hx
      refine ⟨.inl ⟨(x, g), hout⟩, fun y components hy => ?_⟩
      obtain ⟨-, rfl⟩ := Prod.mk.inj (Except.ok.inj (hout.symm.trans hy))
      exact hlength

/-- What runs the plan of a sound tape with an output checks the lengths of its lists. -/
theorem Of.checksLengths
    (ht : t.Sound)
    (hpos : 0 < t.size)
    (h : Of t c) :
    c.ChecksLengths := by
  have hinto := h.differentiateInto_eq ht hpos
  constructor
  · exact fun p hp => (h.program p hp).dimension.trans h.dimension.symm
  · exact fun point hpoint => evaluate_of_length_ne hpoint
  · exact fun point hpoint => differentiate_of_point_ne hpoint c.dimension
  · intro point buffer hpoint
    rw [hinto, differentiate_of_point_ne hpoint]
    rfl
  · intro point buffer hpoint hbuffer
    rw [hinto, differentiate_of_room_ne hpoint hbuffer]
    rfl
  · exact fun point hpoint => h.completes_evaluate ht hpos hpoint
  · exact fun point hpoint => h.completes_gradient ht hpos hpoint
  · intro point buffer hpoint hbuffer
    have hsame : c.differentiateInto point buffer = delivered buffer (c.gradient point) := by
      rw [hinto, hbuffer, gradient]
    refine ⟨?_, hsame⟩
    rw [hsame, delivered_fst]
    exact (h.completes_gradient ht hpos hpoint).1.map Prod.fst

end Calls

section Results

/-- What was made from a term, or from a tape that a caller can come to hold, checks the lengths of
its lists in every call, however it was used before.  The functions that it calls are registered if
its tape was accepted. -/
theorem calls_check_lengths
    (src : Source κ α) (options : Options) (c₀ c : CompiledTerm κ α)
    (hsrc : src.Legal)
    (hbuild : src.build options = .ok c₀)
    (hused : Used c₀ c) :
    c.ChecksLengths ∧ (src.Accepted → c.tape.HandlesRegistered) := by
  obtain ⟨t, vs, hgives, hassemble⟩ := Source.build_eq_ok_iff.1 hbuild
  have ht := (hgives.reachable hsrc).sound
  have hof := hused.of ht (of_assemble hassemble).1
  refine ⟨hof.checksLengths ht hgives.size_pos, fun haccepted => ?_⟩
  exact (haccepted.of_gives hgives).handlesRegistered.of_fresh_eq hof.fresh.symm

/-- A program of `x * x + x` refuses an empty point and a buffer of two places, and fills a buffer of
one place. -/
theorem calls_check_lengths_sharedTape :
    sharedTape.Reachable ∧ sharedTape.Accepted ∧
      ∃ c₀ c, (Source.tape sharedTape [0]).build { engine := .generated } = .ok c₀ ∧
        Used c₀ c ∧
        c.evaluate [] = (.error (.argument (.lengthMismatch .point 1 0)), c) ∧
        c.differentiateInto [5] [7, 8] =
          (.error (.argument (.lengthMismatch .gradient 1 2)), [7, 8], c) ∧
        ∃ x, (c.differentiateInto [5] [7]).1 = .ok x := by
  have hreach : sharedTape.Reachable := .restored (by cbv) (by cbv) rfl
  have haccepted : sharedTape.Accepted := .restored (by cbv) (by cbv) rfl
  obtain ⟨c₀, hbuild, hdim⟩ : ∃ c₀,
      (Source.tape sharedTape [0]).build { engine := .generated } = .ok c₀ ∧
        ((c₀.after (.gradient [5])).after (.evaluate [1, 2])).dimension = 1 := ⟨_, rfl, rfl⟩
  have hused : Used c₀ ((c₀.after (.gradient [5])).after (.evaluate [1, 2])) :=
    .call (.call .new (.gradient [5])) (.evaluate [1, 2])
  obtain ⟨hchecks, hregistered⟩ :=
    calls_check_lengths (.tape sharedTape [0]) { engine := .generated } c₀ _ hreach hbuild hused
  refine ⟨hreach, haccepted, c₀, _, hbuild, hused, ?_, ?_, ?_⟩
  · rw [hchecks.evaluate_refused [] (by simp [hdim]), hdim]
    rfl
  · rw [hchecks.buffer_refused [5] [7, 8] (by simp [hdim]) (by simp [hdim]), hdim]
    rfl
  · rcases (hchecks.differentiate [5] [7] (by simp [hdim]) (by simp [hdim])).1 with hx | ⟨hnot, -⟩
    · exact hx
    · exact absurd (hregistered haccepted) hnot

end Results
end CompiledTerm
end ReverseMode
