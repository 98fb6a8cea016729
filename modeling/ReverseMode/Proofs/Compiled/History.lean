import ReverseMode.Compiled.Batch
import ReverseMode.Proofs.Integer
import ReverseMode.Proofs.Program.History
import ReverseMode.Proofs.Tape.History
import ReverseMode.Proofs.Tape.Reachable

/-!
# Compiled terms and their past

**Input.**  A source, from which compiled terms are made: a term with its variables, or a tape at
hand.  A compiled term that was made from it and then used: called any number of times, also in
vain, and taken apart and put together again under any options.

**Argument.**  Use changes neither the plan of the tape nor the code of a program, and what a
call returns is a function of these.

**Results.**
* `evaluate_interpreted`, `differentiate_generated` and the like: what a call is, by the engine and
  the lengths of its lists.
* `Used.of`: whatever was made from a source runs the plan of that source.
* `results_forget_use`: it returns what a new one with the same engine returns, and there is
  such a new one.
-/

namespace ReverseMode
namespace CompiledTerm

variable {κ α : Type} [Exponent κ] [Scalar κ α]

section Defs

/-- A call of a compiled term. -/
inductive Call (α : Type) where
  | evaluate (point : List α)
  | differentiate (point : List α) (room : Nat)
  | gradient (point : List α)
  | gradientBatch (points : List (List α))
  | gradientBatchParallel (points : List (List α))
  | evaluateBatchParallel (points : List (List α))

/-- The compiled term that a call leaves, whether it fails or not.  Parallel batches work on
copies. -/
def after (c : CompiledTerm κ α) : Call α → CompiledTerm κ α
  | .evaluate point => (c.evaluate point).2
  | .differentiate point room => (c.differentiate point room).2
  | .gradient point => (c.gradient point).2
  | .gradientBatch points => (c.gradientBatch points).2
  | .gradientBatchParallel _ | .evaluateBatchParallel _ => c

/-- What becomes of a compiled term in use. -/
inductive Used (c₀ : CompiledTerm κ α) : CompiledTerm κ α → Prop where
  | new : Used c₀ c₀
  | call {c : CompiledTerm κ α} (h : Used c₀ c) (call : Call α) : Used c₀ (c.after call)
  /-- Its tape is taken out and given an engine again. -/
  | rebuild {c c' : CompiledTerm κ α} (h : Used c₀ c) (vs : List Nat) (options : Options)
      (hbuild : ofTape c.intoTape vs options = .ok c') : Used c₀ c'

/-- What a compiled term is made from. -/
inductive Source (κ α : Type) [Exponent κ] where
  | term (g : Graph κ α) (root : g.Term) (vs : List g.Variable)
  | tape (tape : Tape κ α) (vs : List Nat)

/-- Makes a compiled term. -/
def Source.build (options : Options) : Source κ α → Except (Error κ) (CompiledTerm κ α)
  | .term g root vs => compile g root vs options
  | .tape t vs => ofTape t vs options

/-- A tape at hand is one that a caller can come to hold. -/
def Source.Legal : Source κ α → Prop
  | .term _ _ _ => True
  | .tape t _ => t.Reachable

/-- The tape that a source gives, with the variables by identity. -/
def Source.Gives (tape : Tape κ α) (vs : List Nat) : Source κ α → Prop
  | .term g root us =>
      ∃ l, Tape.ofTerm g root us = .ok l ∧ l.tape = tape ∧ us.map (fun v => v.1.val) = vs
  | .tape u us => u.dimension = us.length ∧ u.isEmpty = false ∧ u = tape ∧ us = vs

/-- Two compiled terms that return the same from every call. -/
structure SameResults (c c' : CompiledTerm κ α) : Prop where
  evaluate : ∀ point, (c.evaluate point).1 = (c'.evaluate point).1
  differentiate : ∀ point room, (c.differentiate point room).1 = (c'.differentiate point room).1
  gradient : ∀ point, (c.gradient point).1 = (c'.gradient point).1
  gradientBatch : ∀ points, (c.gradientBatch points).1 = (c'.gradientBatch points).1
  gradientBatchParallel :
    ∀ points, c.gradientBatchParallel points = c'.gradientBatchParallel points
  evaluateBatchParallel :
    ∀ points, c.evaluateBatchParallel points = c'.evaluateBatchParallel points

/-- A compiled term that runs the plan of a tape. -/
structure Of (t : Tape κ α) (c : CompiledTerm κ α) : Prop where
  fresh : c.tape.fresh = t.fresh
  program : ∀ p, c.executor = .generated p → Program.Of t p

end Defs

section Making

variable {t : Tape κ α} {c : CompiledTerm κ α} {vs : List Nat} {options : Options}

theorem of_assemble
    (h : assemble t vs options = .ok c) :
    Of t c ∧ c.engine = options.engine := by
  rw [assemble] at h
  cases he : options.engine with
  | interpreted =>
      rw [he] at h
      obtain rfl := Except.ok.inj h
      refine ⟨⟨rfl, ?_⟩, rfl⟩
      rintro p ⟨⟩
  | generated =>
      rw [he] at h
      obtain ⟨p, hp, h⟩ := bind_eq_ok_iff.1 h
      obtain rfl := Except.ok.inj h
      refine ⟨⟨rfl, ?_⟩, rfl⟩
      rintro q ⟨⟩
      exact Program.of_ofTape hp

/-- Making a compiled term from a tape ends with giving the tape its engine. -/
theorem ofTape_eq_ok_iff :
    ofTape t vs options = .ok c ↔
      t.dimension = vs.length ∧ t.isEmpty = false ∧ assemble t vs options = .ok c := by
  rw [ofTape, Slice.check]
  by_cases hlen : t.dimension = vs.length
  · cases hempty : t.isEmpty <;> simp [hlen, bind, Except.bind, throw, throwThe,
      MonadExceptOf.throw]
  · simp [hlen, bind, Except.bind, Except.mapError]

/-- What is compiled from a term runs the plan of the tape of the term. -/
theorem of_compile
    {g : Graph κ α} {root : g.Term} {us : List g.Variable}
    (h : compile g root us options = .ok c) :
    ∃ l, Tape.ofTerm g root us = .ok l ∧ Of l.tape c ∧ c.engine = options.engine := by
  rw [compile] at h
  obtain ⟨l, hl, hassemble⟩ := bind_eq_ok_iff.1 h
  exact ⟨l, hl, of_assemble hassemble⟩

theorem Source.build_eq_ok_iff
    {src : Source κ α} :
    src.build options = .ok c ↔
      ∃ t vs, src.Gives t vs ∧ assemble t vs options = .ok c := by
  cases src with
  | term g root us =>
      change compile g root us options = .ok c ↔ _
      unfold compile
      rw [bind_eq_ok_iff]
      constructor
      · rintro ⟨l, hl, h⟩
        exact ⟨l.tape, _, ⟨l, hl, rfl, rfl⟩, h⟩
      · rintro ⟨t, vs, ⟨l, hl, rfl, rfl⟩, h⟩
        exact ⟨l, hl, h⟩
  | tape u us =>
      rw [Source.build, ofTape_eq_ok_iff]
      constructor
      · rintro ⟨hlen, hempty, h⟩
        exact ⟨u, us, ⟨hlen, hempty, rfl, rfl⟩, h⟩
      · rintro ⟨t, vs, ⟨hlen, hempty, rfl, rfl⟩, h⟩
        exact ⟨hlen, hempty, h⟩

/-- A source gives one tape only. -/
theorem Source.Gives.unique
    {src : Source κ α} {t' : Tape κ α} {vs' : List Nat}
    (h : src.Gives t vs)
    (h' : src.Gives t' vs') :
    t = t' ∧ vs = vs' := by
  cases src with
  | term g root us =>
      obtain ⟨l, hl, rfl, rfl⟩ := h
      obtain ⟨l', hl', rfl, rfl⟩ := h'
      obtain rfl := Except.ok.inj (hl.symm.trans hl')
      exact ⟨rfl, rfl⟩
  | tape u us =>
      obtain ⟨-, -, rfl, rfl⟩ := h
      obtain ⟨-, -, rfl, rfl⟩ := h'
      exact ⟨rfl, rfl⟩

theorem Source.Gives.reachable
    {src : Source κ α}
    (hsrc : src.Legal)
    (h : src.Gives t vs) :
    t.Reachable := by
  cases src with
  | term g root us =>
      obtain ⟨l, hl, rfl, -⟩ := h
      exact .ofTerm hl
  | tape u us =>
      obtain ⟨-, -, rfl, -⟩ := h
      exact hsrc

/-- Where a compiled term has a program, its tape can be given one again. -/
theorem Of.exists_assemble
    (h : Of t c)
    (vs : List Nat) :
    ∃ c', assemble t vs { engine := c.engine } = .ok c' := by
  obtain ⟨tape, us, executor⟩ := c
  cases executor with
  | interpreted => exact ⟨_, rfl⟩
  | generated p =>
      have hp := h.program p rfl
      have hgen : ∃ q, Program.generate t = .ok q := by
        rw [Program.generate, hp.valueCode, hp.partialsCode, hp.accumulationCode]
        exact ⟨_, rfl⟩
      obtain ⟨q, hq⟩ := hgen
      refine ⟨⟨t, vs, .generated q⟩, ?_⟩
      simp only [assemble, engine, Executor.engine, Program.ofTape, hq, Bool.not_true,
        Bool.and_false, Bool.false_eq_true, if_false, mapError_ok]
      rfl

end Making

section Equations

variable {c : CompiledTerm κ α} {p : Program κ α} {point : List α} {room : Nat}

theorem evaluate_of_length_ne
    (h : point.length ≠ c.dimension) :
    c.evaluate point = (.error (.argument (.lengthMismatch .point c.dimension point.length)), c) := by
  unfold evaluate
  rw [Slice.check, if_neg (Ne.symm h)]

theorem differentiate_of_point_ne
    (h : point.length ≠ c.dimension)
    (room : Nat) :
    c.differentiate point room =
      (.error (.argument (.lengthMismatch .point c.dimension point.length)), c) := by
  unfold differentiate
  rw [Slice.check, if_neg (Ne.symm h)]

theorem differentiate_of_room_ne
    (h : point.length = c.dimension)
    (hroom : room ≠ c.dimension) :
    c.differentiate point room =
      (.error (.argument (.lengthMismatch .gradient c.dimension room)), c) := by
  unfold differentiate
  rw [Slice.check, if_pos h.symm, Slice.check, if_neg (Ne.symm hroom)]

/-- The error of a call with a wrong length depends on the lengths only, and the call leaves what
was called as it is. -/
theorem exists_differentiate_eq_error
    {dimension : Nat}
    (h : ¬ (point.length = dimension ∧ room = dimension)) :
    ∃ e : ArgumentError κ, ∀ c : CompiledTerm κ α, c.dimension = dimension →
      c.differentiate point room = (.error (.argument e), c) := by
  by_cases hlen : point.length = dimension
  · have hroom : room ≠ dimension := fun hroom => h ⟨hlen, hroom⟩
    refine ⟨.lengthMismatch .gradient dimension room, ?_⟩
    rintro c rfl
    exact differentiate_of_room_ne hlen hroom
  · refine ⟨.lengthMismatch .point dimension point.length, ?_⟩
    rintro c rfl
    exact differentiate_of_point_ne hlen room

/-- The interpreted engine works on the tape. -/
theorem evaluate_interpreted
    (hc : c.executor = .interpreted)
    (hpoint : point.length = c.dimension) :
    c.evaluate point =
      ((c.tape.evaluate point).1.mapError .fault, { c with tape := (c.tape.evaluate point).2 }) := by
  obtain ⟨tape, vs, executor⟩ := c
  obtain rfl : executor = .interpreted := hc
  rw [evaluate, Slice.check, if_pos hpoint.symm]

/-- The generated engine works on the program. -/
theorem evaluate_generated
    (hc : c.executor = .generated p)
    (hpoint : point.length = c.dimension) :
    c.evaluate point =
      ((p.evaluate point).1.mapError .fault,
        { c with executor := .generated (p.evaluate point).2 }) := by
  obtain ⟨tape, vs, executor⟩ := c
  obtain rfl : executor = .generated p := hc
  rw [evaluate, Slice.check, if_pos hpoint.symm]

theorem differentiate_interpreted
    (hc : c.executor = .interpreted)
    (hpoint : point.length = c.dimension)
    (hroom : room = c.dimension) :
    c.differentiate point room =
      ((c.tape.differentiate point room).1.mapError .fault,
        { c with tape := (c.tape.differentiate point room).2 }) := by
  obtain ⟨tape, vs, executor⟩ := c
  obtain rfl : executor = .interpreted := hc
  rw [differentiate, Slice.check, if_pos hpoint.symm, Slice.check, if_pos hroom.symm]

theorem differentiate_generated
    (hc : c.executor = .generated p)
    (hpoint : point.length = c.dimension)
    (hroom : room = c.dimension) :
    c.differentiate point room =
      ((p.differentiate point room).1.mapError .fault,
        { c with executor := .generated (p.differentiate point room).2 }) := by
  obtain ⟨tape, vs, executor⟩ := c
  obtain rfl : executor = .generated p := hc
  rw [differentiate, Slice.check, if_pos hpoint.symm, Slice.check, if_pos hroom.symm]

omit [Exponent κ] [Scalar κ α] in
theorem executor_of_interpreted
    (h : c.engine = .interpreted) :
    c.executor = .interpreted := by
  rw [engine] at h
  cases hc : c.executor with
  | interpreted => rfl
  | generated p =>
      rw [hc] at h
      cases h

omit [Exponent κ] [Scalar κ α] in
/-- The generated engine has a program. -/
theorem exists_program
    (h : c.engine = .generated) :
    ∃ p, c.executor = .generated p := by
  rw [engine] at h
  cases hc : c.executor with
  | interpreted =>
      rw [hc] at h
      cases h
  | generated p => exact ⟨p, rfl⟩

omit [Exponent κ] [Scalar κ α] in
/-- With the same engine, both work on their tapes or both on programs. -/
theorem executor_cases
    {c' : CompiledTerm κ α}
    (h : c'.engine = c.engine) :
    (c.executor = .interpreted ∧ c'.executor = .interpreted) ∨
      ∃ p q, c.executor = .generated p ∧ c'.executor = .generated q := by
  cases hc : c.engine with
  | interpreted => exact .inl ⟨executor_of_interpreted hc, executor_of_interpreted (h.trans hc)⟩
  | generated =>
      obtain ⟨p, hp⟩ := exists_program hc
      obtain ⟨q, hq⟩ := exists_program (h.trans hc)
      exact .inr ⟨p, q, hp, hq⟩

end Equations

section Calls

variable {t : Tape κ α} {c c' : CompiledTerm κ α}

theorem Of.dimension
    (h : Of t c) :
    c.dimension = t.dimension :=
  Tape.dimension_of_fresh_eq h.fresh

/-- Evaluating keeps the plan and the engine. -/
theorem Of.evaluate
    (ht : t.Sound)
    (h : Of t c)
    (point : List α) :
    Of t (c.evaluate point).2 ∧ (c.evaluate point).2.engine = c.engine := by
  by_cases hlen : point.length = c.dimension
  · cases hc : c.executor with
    | interpreted =>
        rw [evaluate_interpreted hc hlen]
        exact ⟨⟨(Tape.fresh_evaluate (ht.of_fresh_eq h.fresh.symm) point).trans h.fresh,
          h.program⟩, rfl⟩
    | generated p =>
        rw [evaluate_generated hc hlen, engine, engine, hc]
        refine ⟨⟨h.fresh, ?_⟩, rfl⟩
        rintro q ⟨⟩
        exact (h.program p hc).evaluate ht point
  · rw [evaluate_of_length_ne hlen]
    exact ⟨h, rfl⟩

/-- Differentiating keeps the plan and the engine. -/
theorem Of.differentiate
    (ht : t.Sound)
    (h : Of t c)
    (point : List α) (room : Nat) :
    Of t (c.differentiate point room).2 ∧ (c.differentiate point room).2.engine = c.engine := by
  by_cases hlen : point.length = c.dimension ∧ room = c.dimension
  · cases hc : c.executor with
    | interpreted =>
        rw [differentiate_interpreted hc hlen.1 hlen.2]
        exact ⟨⟨(Tape.fresh_differentiate (ht.of_fresh_eq h.fresh.symm) point room).trans h.fresh,
          h.program⟩, rfl⟩
    | generated p =>
        rw [differentiate_generated hc hlen.1 hlen.2, engine, engine, hc]
        refine ⟨⟨h.fresh, ?_⟩, rfl⟩
        rintro q ⟨⟩
        exact (h.program p hc).differentiate ht point room
  · obtain ⟨e, he⟩ := exists_differentiate_eq_error (κ := κ) hlen
    rw [he c rfl]
    exact ⟨h, rfl⟩

theorem Of.gradientBatch
    (ht : t.Sound)
    (h : Of t c)
    (points : List (List α)) :
    Of t (c.gradientBatch points).2 ∧ (c.gradientBatch points).2.engine = c.engine := by
  induction points generalizing c with
  | nil => exact ⟨h, rfl⟩
  | cons p ps ih =>
      obtain ⟨hof, heng⟩ := h.differentiate ht p c.dimension
      rw [CompiledTerm.gradientBatch, gradient]
      rcases hd : c.differentiate p c.dimension with ⟨o, d⟩
      rw [hd] at hof heng
      cases o with
      | error e => exact ⟨hof, heng⟩
      | ok vg =>
          obtain ⟨hof', heng'⟩ := ih hof
          rcases hb : d.gradientBatch ps with ⟨o, b⟩
          rw [hb] at hof' heng'
          simp only [hb]
          cases o with
          | error e => exact ⟨hof', heng'.trans heng⟩
          | ok vgs => exact ⟨hof', heng'.trans heng⟩

theorem Of.after
    (ht : t.Sound)
    (h : Of t c)
    (call : Call α) :
    Of t (c.after call) := by
  cases call with
  | evaluate point => exact (h.evaluate ht point).1
  | differentiate point room => exact (h.differentiate ht point room).1
  | gradient point => exact (h.differentiate ht point c.dimension).1
  | gradientBatch points => exact (h.gradientBatch ht points).1
  | gradientBatchParallel points => exact h
  | evaluateBatchParallel points => exact h

/-- Whatever becomes of a compiled term in use runs the plan that it was made for. -/
theorem Used.of
    {c₀ : CompiledTerm κ α}
    (ht : t.Sound)
    (h₀ : Of t c₀)
    (h : Used c₀ c) :
    Of t c := by
  induction h with
  | new => exact h₀
  | call _ call ih => exact ih.after ht call
  | rebuild _ vs options hbuild ih =>
      obtain ⟨-, -, hassemble⟩ := ofTape_eq_ok_iff.1 hbuild
      obtain ⟨hfresh, hprogram⟩ := (of_assemble hassemble).1
      refine ⟨hfresh.trans ih.fresh, fun p hp => ?_⟩
      exact (hprogram p hp).of_fresh_eq ih.fresh

variable (ht : t.Sound) (h : Of t c) (h' : Of t c') (heng : c'.engine = c.engine)

include ht h h' heng

/-- What evaluating returns is a function of plan and engine. -/
theorem Of.evaluate_eq (point : List α) :
    (c.evaluate point).1 = (c'.evaluate point).1 := by
  have hdim : c'.dimension = c.dimension := h'.dimension.trans h.dimension.symm
  by_cases hlen : point.length = c.dimension
  · have hlen' := hlen.trans hdim.symm
    rcases executor_cases heng with ⟨hc, hc'⟩ | ⟨p, q, hc, hc'⟩
    · have hfresh : c'.tape.fresh = c.tape.fresh := h'.fresh.trans h.fresh.symm
      rw [evaluate_interpreted hc hlen, evaluate_interpreted hc' hlen',
        Tape.evaluate_of_fresh_eq (ht.of_fresh_eq h.fresh.symm) hfresh point]
    · rw [evaluate_generated hc hlen, evaluate_generated hc' hlen',
        (h.program p hc).evaluate_eq ht (h'.program q hc') point]
  · rw [evaluate_of_length_ne hlen, evaluate_of_length_ne (hdim ▸ hlen), hdim]

/-- What differentiating returns is a function of plan and engine. -/
theorem Of.differentiate_eq (point : List α) (room : Nat) :
    (c.differentiate point room).1 = (c'.differentiate point room).1 := by
  have hdim : c'.dimension = c.dimension := h'.dimension.trans h.dimension.symm
  by_cases hlen : point.length = c.dimension ∧ room = c.dimension
  · obtain ⟨hpoint, hroom⟩ := hlen
    have hpoint' := hpoint.trans hdim.symm
    have hroom' := hroom.trans hdim.symm
    rcases executor_cases heng with ⟨hc, hc'⟩ | ⟨p, q, hc, hc'⟩
    · have hfresh : c'.tape.fresh = c.tape.fresh := h'.fresh.trans h.fresh.symm
      rw [differentiate_interpreted hc hpoint hroom, differentiate_interpreted hc' hpoint' hroom',
        Tape.differentiate_of_fresh_eq (ht.of_fresh_eq h.fresh.symm) hfresh point room]
    · rw [differentiate_generated hc hpoint hroom, differentiate_generated hc' hpoint' hroom',
        (h.program p hc).differentiate_eq ht (h'.program q hc') point room]
  · obtain ⟨e, he⟩ := exists_differentiate_eq_error (κ := κ) hlen
    rw [he c rfl, he c' hdim]

theorem Of.gradient_eq (point : List α) :
    (c.gradient point).1 = (c'.gradient point).1 := by
  rw [gradient, gradient, h.dimension, h'.dimension]
  exact h.differentiate_eq ht h' heng point t.dimension

theorem Of.gradientBatch_eq (points : List (List α)) :
    (c.gradientBatch points).1 = (c'.gradientBatch points).1 := by
  induction points generalizing c c' with
  | nil => rfl
  | cons p ps ih =>
      have hout := h.gradient_eq ht h' heng p
      obtain ⟨hof, hof_eng⟩ := h.differentiate ht p c.dimension
      obtain ⟨hof', hof_eng'⟩ := h'.differentiate ht p c'.dimension
      rw [CompiledTerm.gradientBatch, CompiledTerm.gradientBatch]
      rw [gradient, gradient] at hout ⊢
      rcases hd : c.differentiate p c.dimension with ⟨o, d⟩
      rcases hd' : c'.differentiate p c'.dimension with ⟨o', d'⟩
      rw [hd, hd'] at hout
      rw [hd] at hof hof_eng
      rw [hd'] at hof' hof_eng'
      obtain rfl : o = o' := hout
      cases o with
      | error e => rfl
      | ok vg =>
          have hrest := ih hof hof' (hof_eng'.trans (heng.trans hof_eng.symm))
          rcases hb : d.gradientBatch ps with ⟨o, b⟩
          rcases hb' : d'.gradientBatch ps with ⟨o', b'⟩
          rw [hb, hb'] at hrest
          obtain rfl : o = o' := hrest
          simp only [hb, hb']
          cases o <;> rfl

theorem Of.gradientBatchParallel_eq (points : List (List α)) :
    c.gradientBatchParallel points = c'.gradientBatchParallel points := by
  rw [gradientBatchParallel, gradientBatchParallel, checkPoints, checkPoints, h.dimension,
    h'.dimension, mapM_congr fun p _ => h.gradient_eq ht h' heng p]

theorem Of.evaluateBatchParallel_eq (points : List (List α)) :
    c.evaluateBatchParallel points = c'.evaluateBatchParallel points := by
  rw [evaluateBatchParallel, evaluateBatchParallel, checkPoints, checkPoints, h.dimension,
    h'.dimension, mapM_congr fun p _ => h.evaluate_eq ht h' heng p]

end Calls

section Results

theorem Of.sameResults
    {t : Tape κ α} {c c' : CompiledTerm κ α}
    (ht : t.Sound)
    (h : Of t c)
    (h' : Of t c')
    (heng : c'.engine = c.engine) :
    SameResults c c' := by
  constructor
  · exact h.evaluate_eq ht h' heng
  · exact h.differentiate_eq ht h' heng
  · exact h.gradient_eq ht h' heng
  · exact h.gradientBatch_eq ht h' heng
  · exact h.gradientBatchParallel_eq ht h' heng
  · exact h.evaluateBatchParallel_eq ht h' heng

/-- Whatever was done with a compiled term, it can be made anew for its engine, and it returns
what every such new one returns.  A tape that was swept returns what every tape of its plan
returns, be it unswept or not. -/
theorem results_forget_use :
    (∀ (src : Source κ α) (options : Options) (c₀ c : CompiledTerm κ α),
      src.Legal → src.build options = .ok c₀ → Used c₀ c →
        (∃ c', src.build { engine := c.engine } = .ok c') ∧
        ∀ options' c', src.build options' = .ok c' → c'.engine = c.engine →
          SameResults c c') ∧
    ∀ (t u : Tape κ α) (calls : List (Tape.Call α)),
      t.Reachable → u.fresh = t.fresh →
        (∀ point, ((t.run calls).evaluate point).1 = (u.evaluate point).1) ∧
        ∀ point room,
          ((t.run calls).differentiate point room).1 = (u.differentiate point room).1 := by
  constructor
  · intro src options c₀ c hsrc hbuild hused
    obtain ⟨t, vs, hgives, hassemble⟩ := Source.build_eq_ok_iff.1 hbuild
    have ht := (hgives.reachable hsrc).sound
    have hof := hused.of ht (of_assemble hassemble).1
    constructor
    · obtain ⟨c', hc'⟩ := hof.exists_assemble vs
      exact ⟨c', Source.build_eq_ok_iff.2 ⟨t, vs, hgives, hc'⟩⟩
    · intro options' c' hbuild' heng
      obtain ⟨t', vs', hgives', hassemble'⟩ := Source.build_eq_ok_iff.1 hbuild'
      obtain ⟨rfl, rfl⟩ := hgives.unique hgives'
      exact hof.sameResults ht (of_assemble hassemble').1 heng
  · intro t u calls ht hfresh
    have hrun := Tape.fresh_run ht.sound calls
    have hsound := ht.sound.of_fresh_eq hrun.symm
    have hsame : u.fresh = (t.run calls).fresh := hfresh.trans hrun.symm
    exact ⟨Tape.evaluate_of_fresh_eq hsound hsame, Tape.differentiate_of_fresh_eq hsound hsame⟩

/-- Used by a generated engine and swept by hand, the tape of `x * x + x` gives what it gives
when it is new. -/
theorem results_forget_use_sharedTape :
    (Source.tape sharedTape [0]).Legal ∧
      ∃ c₀, (Source.tape sharedTape [0]).build { engine := .generated } = .ok c₀ ∧
        SameResults ((c₀.after (.gradient [5])).after (.evaluate [1, 2])) c₀ ∧
        ((sharedTape.run [.forward [4], .reverse]).differentiate [3] 1).1 = .ok (12, [7]) := by
  have hreach : sharedTape.Reachable := .restored (by cbv) (by cbv) rfl
  obtain ⟨c₀, hbuild, hengine⟩ : ∃ c₀,
      (Source.tape sharedTape [0]).build { engine := .generated } = .ok c₀ ∧
        c₀.engine = ((c₀.after (.gradient [5])).after (.evaluate [1, 2])).engine :=
    ⟨_, rfl, rfl⟩
  have hused : Used c₀ ((c₀.after (.gradient [5])).after (.evaluate [1, 2])) :=
    .call (.call .new (.gradient [5])) (.evaluate [1, 2])
  refine ⟨hreach, c₀, hbuild, ?_, ?_⟩
  · exact (results_forget_use.1 (.tape sharedTape [0]) _ _ _ hreach hbuild hused).2 _ _ hbuild hengine
  · rw [(results_forget_use.2 _ sharedTape [.forward [4], .reverse] hreach rfl).2]
    cbv

end Results
end CompiledTerm
end ReverseMode
