import ReverseMode.Proofs.Compiled.History
import ReverseMode.Proofs.Program.Refinement
import ReverseMode.Proofs.Program.Safety
import ReverseMode.Proofs.Tape.Safety

/-!
# Engines that do not fault

**Input.**  An accepted tape, or a term that has one; any sequence of sweeps; any program made then
and any sequence of its calls; any compiled term made then and whatever becomes of it in use.

**Argument.**  Compiled terms check lengths before they run an engine.  After that it is the engine
that matters: a tape of the accepted plan, which is safe (`Tape.Accepted.safe`), or a program of
such a tape, which is safe too (`Program.Of.safe`).

**Results.**
* `Of.safe`: a compiled term that runs a safe plan is safe.
* `engines_never_fault`: so is everything that is made from accepted tapes, and making it is no
  fault either.
-/

namespace ReverseMode

variable {κ α : Type}

/-- A result, or an error that a caller can answer for: no fault. -/
abbrev Faultless {β : Type} (r : Except (Error κ) β) : Prop :=
  FailsOnly (fun e => ∀ f, e ≠ .fault f) r

theorem faultless_check (what : Slice) (expected got : Nat) :
    Faultless ((what.check expected got : Except (ArgumentError κ) Unit).mapError .argument) := by
  rw [Slice.check]
  split
  · exact failsOnly_ok ()
  · exact failsOnly_error (by rintro f ⟨⟩)

variable [Exponent κ] [Scalar κ α]

/-- Making a program is no fault, whether functions are allowed or not. -/
theorem Program.faultless_ofTape
    {t : Tape κ α}
    (ht : t.Sound)
    (hreg : t.HandlesRegistered)
    (allow : Bool) :
    Faultless (ofTape t allow) := by
  by_cases hallow : allow = true ∨ t.callbackCount = 0
  · obtain ⟨p, hp⟩ := exists_ofTape ht hreg hallow
    rw [hp]
    exact failsOnly_ok p
  · have hrefuse : 0 < t.callbackCount ∧ allow = false := by
      cases allow <;> simp_all [Nat.pos_iff_ne_zero]
    rw [ofTape, if_pos (by simp [hrefuse])]
    exact failsOnly_error (by rintro f ⟨⟩)

namespace CompiledTerm

section Defs

/-- A compiled term with a safe engine whose calls are no faults, however long the lists are that
it is given. -/
structure Safe (c : CompiledTerm κ α) : Prop where
  tape : c.tape.Safe
  program : ∀ p, c.executor = .generated p → p.Safe ∧ p.dimension = c.dimension
  evaluate : ∀ point, Faultless (c.evaluate point).1
  differentiate : ∀ point room, Faultless (c.differentiate point room).1
  gradient : ∀ point, Faultless (c.gradient point).1
  gradientBatch : ∀ points, Faultless (c.gradientBatch points).1
  gradientBatchParallel : ∀ points, Faultless (c.gradientBatchParallel points)
  evaluateBatchParallel : ∀ points, Faultless (c.evaluateBatchParallel points)

/-- A source of an accepted tape: a term that has a tape, or an accepted tape. -/
def Source.Accepted : Source κ α → Prop
  | .term g root vs => ∃ l, Tape.ofTerm g root vs = .ok l
  | .tape t _ => t.Accepted

end Defs

section Calls

variable {t : Tape κ α} {c : CompiledTerm κ α}

theorem Of.safe_tape
    (ht : t.Accepted)
    (h : Of t c) :
    c.tape.Safe := by
  have hsize := Tape.size_of_fresh_eq h.fresh
  have hpos := ht.size_pos
  exact (ht.reachable.sound.of_fresh_eq h.fresh.symm).safe
    (ht.handlesRegistered.of_fresh_eq h.fresh.symm) (by omega)

theorem Of.safe_program
    {p : Program κ α}
    (ht : t.Accepted)
    (h : Of t c)
    (hp : c.executor = .generated p) :
    p.Safe ∧ p.dimension = c.dimension := by
  have hof := h.program p hp
  exact ⟨hof.safe ht.reachable.sound, hof.dimension.trans h.dimension.symm⟩

/-- At a point of the right length there is a value. -/
theorem Of.exists_evaluate
    {point : List α}
    (ht : t.Accepted)
    (h : Of t c)
    (hlen : point.length = c.dimension) :
    ∃ x, (c.evaluate point).1 = .ok x := by
  have htape := h.safe_tape ht
  cases hc : c.executor with
  | interpreted =>
      obtain ⟨x, hx⟩ := htape.evaluate point hlen
      rw [evaluate_interpreted hc hlen]
      exact ⟨x, congrArg (Except.mapError Error.fault) hx⟩
  | generated p =>
      obtain ⟨hsafe, hdim⟩ := h.safe_program ht hc
      obtain ⟨x, hx⟩ := hsafe.evaluate point (hlen.trans hdim.symm)
      rw [evaluate_generated hc hlen]
      exact ⟨x, congrArg (Except.mapError Error.fault) hx⟩

/-- At a point of the right length there are a value and a gradient of that length. -/
theorem Of.exists_differentiate
    {point : List α}
    (ht : t.Accepted)
    (h : Of t c)
    (hlen : point.length = c.dimension) :
    ∃ x gradient, (c.differentiate point c.dimension).1 = .ok (x, gradient) ∧
      gradient.length = c.dimension := by
  have htape := h.safe_tape ht
  cases hc : c.executor with
  | interpreted =>
      obtain ⟨x, gradient, hx, hsize⟩ := htape.differentiate point hlen
      rw [differentiate_interpreted hc hlen rfl]
      exact ⟨x, gradient, congrArg (Except.mapError Error.fault) hx, hsize⟩
  | generated p =>
      obtain ⟨hsafe, hdim⟩ := h.safe_program ht hc
      obtain ⟨x, gradient, hx, hsize⟩ := hsafe.differentiate point (hlen.trans hdim.symm)
      rw [hdim] at hx hsize
      rw [differentiate_generated hc hlen rfl]
      exact ⟨x, gradient, congrArg (Except.mapError Error.fault) hx, hsize⟩

theorem Of.faultless_evaluate
    (ht : t.Accepted)
    (h : Of t c)
    (point : List α) :
    Faultless (c.evaluate point).1 := by
  by_cases hlen : point.length = c.dimension
  · obtain ⟨x, hx⟩ := h.exists_evaluate ht hlen
    rw [hx]
    exact failsOnly_ok x
  · rw [evaluate_of_length_ne hlen]
    exact failsOnly_error (by rintro f ⟨⟩)

theorem Of.faultless_differentiate
    (ht : t.Accepted)
    (h : Of t c)
    (point : List α) (room : Nat) :
    Faultless (c.differentiate point room).1 := by
  by_cases hlen : point.length = c.dimension ∧ room = c.dimension
  · obtain ⟨x, gradient, hx, -⟩ := h.exists_differentiate ht hlen.1
    rw [hlen.2, hx]
    exact failsOnly_ok (x, gradient)
  · obtain ⟨e, he⟩ := exists_differentiate_eq_error (κ := κ) hlen
    rw [he c rfl]
    exact failsOnly_error (by rintro f ⟨⟩)

theorem Of.faultless_gradientBatch
    (ht : t.Accepted)
    (h : Of t c)
    (points : List (List α)) :
    Faultless (c.gradientBatch points).1 := by
  induction points generalizing c with
  | nil => exact failsOnly_ok []
  | cons p ps ih =>
      have hfirst := h.faultless_differentiate ht p c.dimension
      have hof := (h.differentiate ht.reachable.sound p c.dimension).1
      rw [CompiledTerm.gradientBatch, CompiledTerm.gradient]
      rcases hd : c.differentiate p c.dimension with ⟨o, d⟩
      rw [hd] at hfirst hof
      cases o with
      | error e => exact failsOnly_error (hfirst e rfl)
      | ok vg =>
          have hrest := ih hof
          rcases hb : d.gradientBatch ps with ⟨o, b⟩
          rw [hb] at hrest
          simp only [hb]
          cases o with
          | error e => exact failsOnly_error (hrest e rfl)
          | ok vgs => exact failsOnly_ok _

omit [Exponent κ] [Scalar κ α] in
theorem faultless_checkPoints (c : CompiledTerm κ α) (points : List (List α)) :
    Faultless (c.checkPoints points) := by
  induction points with
  | nil => exact failsOnly_ok ()
  | cons p ps ih =>
      exact failsOnly_bind (faultless_check .point c.dimension p.length) fun _ => ih

/-- A compiled term that runs the plan of an accepted tape is safe. -/
theorem Of.safe
    (ht : t.Accepted)
    (h : Of t c) :
    c.Safe := by
  constructor
  · exact h.safe_tape ht
  · exact fun p hp => h.safe_program ht hp
  · exact h.faultless_evaluate ht
  · exact h.faultless_differentiate ht
  · exact fun point => h.faultless_differentiate ht point c.dimension
  · exact h.faultless_gradientBatch ht
  · intro points
    exact failsOnly_bind (faultless_checkPoints c points) fun _ =>
      failsOnly_mapM fun p => h.faultless_differentiate ht p c.dimension
  · intro points
    exact failsOnly_bind (faultless_checkPoints c points) fun _ =>
      failsOnly_mapM (h.faultless_evaluate ht)

end Calls

section Making

variable {t : Tape κ α} {vs : List Nat}

theorem faultless_assemble
    (ht : t.Accepted)
    (vs : List Nat) (options : Options) :
    Faultless (assemble t vs options) := by
  rw [assemble]
  split
  · exact failsOnly_ok _
  · refine failsOnly_bind ?_ fun p => failsOnly_ok _
    exact Program.faultless_ofTape ht.reachable.sound ht.handlesRegistered options.allowCallbacks

theorem Source.Accepted.faultless_build
    {src : Source κ α}
    (h : src.Accepted)
    (options : Options) :
    Faultless (src.build options) := by
  cases src with
  | term g root us =>
      obtain ⟨l, hl⟩ := h
      rw [Source.build, compile, hl]
      exact faultless_assemble (.ofTerm hl) (us.map fun v => v.1.val) options
  | tape t us =>
      rw [Source.build, ofTape]
      refine failsOnly_bind (faultless_check .variableList t.dimension us.length) fun _ => ?_
      split
      · exact failsOnly_error (by rintro f ⟨⟩)
      · exact faultless_assemble h us options

theorem Source.Accepted.of_gives
    {src : Source κ α}
    (h : src.Accepted)
    (hgives : src.Gives t vs) :
    t.Accepted := by
  cases src with
  | term g root us =>
      obtain ⟨l, hl, rfl, -⟩ := hgives
      exact .ofTerm hl
  | tape u us =>
      obtain ⟨-, -, rfl, -⟩ := hgives
      exact h

end Making

section Results

/-- No engine faults or writes past its tables on what was made from an accepted tape, however it
was used before: not the sweeps of the tape, not its programs, and not compiled terms.  Nor is it a
fault to make these.  Sweeping keeps tapes accepted, and what decoding lets pass is accepted. -/
theorem engines_never_fault :
    (∀ (t : Tape κ α) (calls : List (Tape.Call α)), t.Accepted →
      (t.run calls).Accepted ∧ (t.run calls).Safe ∧
      ∀ allow, Faultless (Program.ofTape (t.run calls) allow) ∧
        ∀ p uses, Program.ofTape (t.run calls) allow = .ok p → (p.run uses).Safe) ∧
    (∀ (src : Source κ α) (options : Options), src.Accepted →
      Faultless (src.build options) ∧
        ∀ c₀ c, src.build options = .ok c₀ → Used c₀ c → c.Safe) ∧
    ∀ (d : Data) (t : Tape Float Float), Tape.decode d = .ok t → t.Accepted := by
  refine ⟨?_, ?_, fun d t h => Tape.accepted_of_decode h⟩
  · intro t calls ht
    have hu := ht.run calls
    have hsound := hu.reachable.sound
    refine ⟨hu, hu.safe, fun allow => ⟨?_, fun p uses hp => ?_⟩⟩
    · exact Program.faultless_ofTape hsound hu.handlesRegistered allow
    · exact ((Program.of_ofTape hp).run hsound uses).safe hsound
  · intro src options hsrc
    refine ⟨hsrc.faultless_build options, fun c₀ c hbuild hused => ?_⟩
    obtain ⟨t, vs, hgives, hassemble⟩ := Source.build_eq_ok_iff.1 hbuild
    have ht := hsrc.of_gives hgives
    exact (hused.of ht.reachable.sound (of_assemble hassemble).1).safe ht

/-- A tape of the exponential as data, with its fields given by position. -/
def encodedExp : Data :=
  .list [
    .list [
      .list [.text "Input", .int 0, .int 0, .list [.int 0, .int 0]],
      .list [.text "Exp", .int 0, .int 0, .list [.int 0, .int 1]]],
    .list [.list [.int 0, .int 0]],
    .int 1]

/-- Lists of wrong lengths included, nothing faults on the tape of `x * x + x`, and the data of an
exponential is let pass. -/
theorem engines_never_fault_sharedTape :
    sharedTape.Accepted ∧ (sharedTape.run [.forward [], .evaluate [4]]).Safe ∧
      (∃ p, Program.ofTape (sharedTape.run [.reverse]) true = .ok p ∧
        (p.run [.differentiate [5] 2, .evaluate [3]]).Safe) ∧
      (∃ c₀, (Source.tape sharedTape [0]).build { engine := .generated } = .ok c₀ ∧
        ((c₀.after (.evaluate [1, 2])).after (.gradient [5])).Safe) ∧
      ∃ t, Tape.decode encodedExp = .ok t ∧ t.Accepted := by
  have haccepted : sharedTape.Accepted := .restored (by cbv) (by cbv) rfl
  obtain ⟨htapes, hsources, hdecode⟩ := engines_never_fault (κ := Nat) (α := Int)
  refine ⟨haccepted, ?_, ?_, ?_, ?_⟩
  · exact (htapes sharedTape [.forward [], .evaluate [4]] haccepted).2.1
  · obtain ⟨hu, -, hprograms⟩ := htapes sharedTape [.reverse] haccepted
    obtain ⟨p, hp⟩ := Program.exists_ofTape hu.reachable.sound hu.handlesRegistered
      (.inl (rfl : true = true))
    exact ⟨p, hp, (hprograms true).2 p _ hp⟩
  · obtain ⟨c₀, hbuild⟩ : ∃ c₀,
        (Source.tape sharedTape [0]).build { engine := .generated } = .ok c₀ := ⟨_, rfl⟩
    have hused : Used c₀ ((c₀.after (.evaluate [1, 2])).after (.gradient [5])) :=
      .call (.call .new (.evaluate [1, 2])) (.gradient [5])
    exact ⟨c₀, hbuild, (hsources (.tape sharedTape [0]) _ haccepted).2 c₀ _ hbuild hused⟩
  · have hok : (Tape.decode encodedExp).isOk = true := by decide +kernel
    cases hd : Tape.decode encodedExp with
    | error e =>
        rw [hd] at hok
        cases hok
    | ok t => exact ⟨t, rfl, hdecode encodedExp t hd⟩

end Results
end CompiledTerm
end ReverseMode
