import ReverseMode.Compiled.Buffer
import ReverseMode.Proofs.Compiled.Independence

/-!
# Parametric terms and full compilations

**Input.**  A term compiled over free variables and parameters, called any number of times, also in
vain.

**Argument.**  The stored lists keep their lengths, and the engine keeps its plan (`Runs`).  So a
call with right lengths runs the engine at the point followed by the parameters, whatever the
stored lists held before, and a call with a wrong length does nothing.  Over a reordering of its
variables a term returns the same (`CompiledTerm.results_of_perm`).

**Results.**
* `Runs.evaluate`, `Runs.differentiate`: what one call returns, and that it keeps the invariant.
* `Used.runs`: the invariant after any number of calls.
* `parametric_refines_full`: a parametric term fails to compile where the full compilation does,
  returns what it returns, and does not look at where the free variables end.
-/

namespace ReverseMode

variable {κ α : Type}

/-- The complaint about the first length that is not the one expected. -/
def firstMismatch : List (Slice × Nat × Nat) → Option (ArgumentError κ)
  | [] => none
  | (what, expected, got) :: rest =>
      if expected = got then firstMismatch rest else some (.lengthMismatch what expected got)

namespace ParametricTerm

variable [Exponent κ] [Scalar κ α]

section Defs

/-- A call of a parametric term. -/
inductive Call (α : Type) where
  | evaluate (point params : List α)
  | differentiate (point params : List α) (room : Nat)
  | gradient (point params : List α)

/-- The parametric term that a call leaves, whether it fails or not. -/
def after (p : ParametricTerm κ α) : Call α → ParametricTerm κ α
  | .evaluate point params => (p.evaluate point params).2
  | .differentiate point params room => (p.differentiate point params room).2
  | .gradient point params => (p.gradient point params).2

/-- What becomes of a parametric term in use. -/
inductive Used (p₀ : ParametricTerm κ α) : ParametricTerm κ α → Prop where
  | new : Used p₀ p₀
  | call {p : ParametricTerm κ α} (h : Used p₀ p) (call : Call α) : Used p₀ (p.after call)

/-- The gradient of a caller after a call: what was written to it, or what it held. -/
def written (buffer : List α) : Except (Error κ) (α × List α) → List α
  | .ok r => r.2
  | .error _ => buffer

/-- A parametric term with `free` free variables that runs what `c₀` runs, with storage of the
right lengths. -/
structure Runs (c₀ : CompiledTerm κ α) (free : Nat) (p : ParametricTerm κ α) : Prop where
  used : CompiledTerm.Used c₀ p.inner
  engine : p.inner.engine = c₀.engine
  free : p.free = free
  joined : p.joined.length = c₀.dimension
  fullGradient : p.fullGradient.length = c₀.dimension

/-- A parametric term with `free` free variables and `count` parameters that returns what a full
compilation `c` returns at the point followed by the parameters, and the leading components of its
gradient.  Lists of wrong lengths have no effect at all. -/
structure Refines (free count : Nat) (c : CompiledTerm κ α) (p : ParametricTerm κ α) : Prop where
  evaluate : ∀ point params, point.length = free → params.length = count →
    ∃ value, (c.evaluate (point ++ params)).1 = .ok value ∧
      (p.evaluate point params).1 = .ok value
  differentiate : ∀ point params buffer, point.length = free → params.length = count →
    buffer.length = free → ∃ value full, full.length = free + count ∧
      (c.gradient (point ++ params)).1 = .ok (value, full) ∧
      ((p.differentiate point params buffer.length).1.map Prod.fst) = .ok value ∧
      written buffer (p.differentiate point params buffer.length).1 = full.take free
  evaluate_refused : ∀ point params e,
    firstMismatch [(.point, free, point.length), (.parameters, count, params.length)] = some e →
      p.evaluate point params = (.error (.argument e), p)
  differentiate_refused : ∀ point params buffer e,
    firstMismatch [(.gradient, free, buffer.length), (.point, free, point.length),
      (.parameters, count, params.length)] = some e →
      p.differentiate point params buffer.length = (.error (.argument e), p) ∧
        written buffer (p.differentiate point params buffer.length).1 = buffer

end Defs

section Calls

variable {t : Tape κ α} {c₀ : CompiledTerm κ α} {p : ParametricTerm κ α} {free count : Nat}
  {point params : List α}

/-- A buffer receives what is written to it. -/
theorem differentiateInto_eq (point params buffer : List α) (p : ParametricTerm κ α) :
    p.differentiateInto point params buffer =
      ((p.differentiate point params buffer.length).1.map Prod.fst,
        written buffer (p.differentiate point params buffer.length).1,
        (p.differentiate point params buffer.length).2) := by
  rw [differentiateInto]
  rcases p.differentiate point params buffer.length with ⟨_ | ⟨value, gradient⟩, q⟩ <;> rfl

omit [Exponent κ] [Scalar κ α] in
/-- A wrong length is found before anything is joined. -/
theorem join_of_mismatch
    {e : ArgumentError κ}
    (h : firstMismatch [(.point, p.free, point.length),
      (.parameters, p.parameterCount, params.length)] = some e) :
    p.join point params = .error (.argument e) := by
  rw [join, Slice.check, Slice.check]
  by_cases hpoint : p.free = point.length
  · by_cases hparams : p.parameterCount = params.length
    · simp [firstMismatch, hpoint, hparams] at h
    · simp only [firstMismatch, if_pos hpoint, if_neg hparams] at h
      obtain rfl := Option.some.inj h
      rw [if_pos hpoint, if_neg hparams]
      rfl
  · simp only [firstMismatch, if_neg hpoint] at h
    obtain rfl := Option.some.inj h
    rw [if_neg hpoint]
    rfl

theorem evaluate_of_mismatch
    {e : ArgumentError κ}
    (h : firstMismatch [(.point, p.free, point.length),
      (.parameters, p.parameterCount, params.length)] = some e) :
    p.evaluate point params = (.error (.argument e), p) := by
  rw [evaluate, join_of_mismatch h]

theorem differentiate_of_mismatch
    {room : Nat} {e : ArgumentError κ}
    (h : firstMismatch [(.gradient, p.free, room), (.point, p.free, point.length),
      (.parameters, p.parameterCount, params.length)] = some e) :
    p.differentiate point params room = (.error (.argument e), p) := by
  rw [differentiate, Slice.check]
  by_cases hroom : p.free = room
  · rw [firstMismatch, if_pos hroom] at h
    rw [if_pos hroom, join_of_mismatch h]
  · simp only [firstMismatch, if_neg hroom] at h
    obtain rfl := Option.some.inj h
    rw [if_neg hroom]

omit [Exponent κ] [Scalar κ α] in
theorem lengths_of_firstMismatch
    (h : (firstMismatch [(.point, free, point.length), (.parameters, count, params.length)] :
      Option (ArgumentError κ)) = none) :
    point.length = free ∧ params.length = count := by
  by_cases hpoint : free = point.length
  · by_cases hparams : count = params.length
    · exact ⟨hpoint.symm, hparams.symm⟩
    · simp [firstMismatch, hpoint, hparams] at h
  · simp [firstMismatch, hpoint] at h

section Accepted

variable (ht : t.Accepted) (h₀ : CompiledTerm.Of t c₀) (h : Runs c₀ free p)

include ht h₀ h

theorem Runs.of :
    CompiledTerm.Of t p.inner :=
  h.used.of ht.reachable.sound h₀

theorem Runs.dimension_inner :
    p.inner.dimension = c₀.dimension :=
  (h.of ht h₀).dimension.trans h₀.dimension.symm

theorem Runs.parameterCount
    (hdim : free + count = c₀.dimension) :
    p.parameterCount = count := by
  rw [ParametricTerm.parameterCount, h.dimension_inner ht h₀, h.free]
  omega

/-- Joining overwrites all that was stored. -/
theorem Runs.join
    (hdim : free + count = c₀.dimension)
    (hpoint : point.length = free)
    (hparams : params.length = count) :
    p.join point params = .ok { p with joined := point ++ params } := by
  have hjoined := h.joined
  have hhead : (p.joined.take p.free).length = point.length := by
    rw [List.length_take, h.free]
    omega
  have htail : (p.joined.drop p.free).length = params.length := by
    rw [List.length_drop, h.free]
    omega
  rw [ParametricTerm.join, Slice.check, if_pos (h.free.trans hpoint.symm), Slice.check,
    if_pos ((h.parameterCount ht h₀ hdim).trans hparams.symm), overwrite, if_pos hhead, overwrite,
    if_pos htail]
  rfl

/-- Evaluating returns what the engine does at the point followed by the parameters. -/
theorem Runs.evaluate
    (hdim : free + count = c₀.dimension)
    (hpoint : point.length = free)
    (hparams : params.length = count) :
    (p.evaluate point params).1 = (p.inner.evaluate (point ++ params)).1 ∧
      Runs c₀ free (p.evaluate point params).2 := by
  have hlen : (point ++ params).length = c₀.dimension := by
    rw [List.length_append]
    omega
  rw [ParametricTerm.evaluate, h.join ht h₀ hdim hpoint hparams]
  refine ⟨rfl, .call h.used (.evaluate (point ++ params)), ?_, h.free, hlen, h.fullGradient⟩
  exact ((h.of ht h₀).evaluate ht.reachable.sound (point ++ params)).2.trans h.engine

/-- Differentiating returns the value and the leading components of the gradient. -/
theorem Runs.differentiate
    (hdim : free + count = c₀.dimension)
    (hpoint : point.length = free)
    (hparams : params.length = count) :
    ∃ value full, full.length = c₀.dimension ∧
      (p.inner.gradient (point ++ params)).1 = .ok (value, full) ∧
      (p.differentiate point params free).1 = .ok (value, full.take free) ∧
      Runs c₀ free (p.differentiate point params free).2 := by
  have hlen : (point ++ params).length = c₀.dimension := by
    rw [List.length_append]
    omega
  have hof := h.of ht h₀
  have hinner := h.dimension_inner ht h₀
  have hengine := (hof.differentiate ht.reachable.sound (point ++ params) p.inner.dimension).2
  have hused : CompiledTerm.Used c₀ (p.inner.differentiate (point ++ params) _).2 :=
    .call h.used (.differentiate (point ++ params) p.inner.dimension)
  obtain ⟨value, full, hvalue, hfull⟩ := hof.exists_differentiate ht (hlen.trans hinner.symm)
  have hroom : p.fullGradient.length = p.inner.dimension := h.fullGradient.trans hinner.symm
  have hcheck : (Slice.gradient.check p.free free : Except (ArgumentError κ) Unit) = .ok () :=
    if_pos h.free
  have hfree : p.free ≤ full.length := by
    rw [hfull, hinner, h.free]
    omega
  refine ⟨value, full, hfull.trans hinner, hvalue, ?_⟩
  rw [ParametricTerm.differentiate, hcheck, h.join ht h₀ hdim hpoint hparams]
  simp only [hroom]
  rcases hd : p.inner.differentiate (point ++ params) p.inner.dimension with ⟨r, inner⟩
  rw [hd] at hvalue hengine hused
  obtain rfl : r = .ok (value, full) := hvalue
  simp only [freeGradient, if_pos hfree, map_ok]
  refine ⟨by rw [h.free], hused, hengine.trans h.engine, h.free, hlen, ?_⟩
  exact hfull.trans hinner

/-- What the engine returns at the point followed by the parameters, cut to the free variables. -/
theorem Runs.results
    {value : α} {head tail : List α}
    (hdim : free + count = c₀.dimension)
    (hpoint : point.length = free)
    (hparams : params.length = count)
    (hhead : head.length = free)
    (hevaluate : (p.inner.evaluate (point ++ params)).1 = .ok value)
    (hgradient : (p.inner.gradient (point ++ params)).1 = .ok (value, head ++ tail)) :
    (p.evaluate point params).1 = .ok value ∧
      (p.gradient point params).1 = .ok (value, head) := by
  refine ⟨(h.evaluate ht h₀ hdim hpoint hparams).1.trans hevaluate, ?_⟩
  obtain ⟨value', full, -, hfull, hresult, -⟩ := h.differentiate ht h₀ hdim hpoint hparams
  obtain ⟨rfl, rfl⟩ := Prod.mk.inj (Except.ok.inj (hgradient.symm.trans hfull))
  rw [gradient, h.free, hresult, List.take_append_of_le_length (Nat.le_of_eq hhead.symm),
    List.take_of_length_le (Nat.le_of_eq hhead)]

/-- Every call keeps the invariant, be it refused or not. -/
theorem Runs.after
    (hdim : free + count = c₀.dimension)
    (call : Call α) :
    Runs c₀ free (p.after call) := by
  have hfree := h.free
  have hcount := h.parameterCount ht h₀ hdim
  have hdifferentiate : ∀ point params room,
      Runs c₀ free (p.differentiate point params room).2 := by
    intro point params room
    cases hm : (firstMismatch [(.gradient, p.free, room), (.point, p.free, point.length),
        (.parameters, p.parameterCount, params.length)] : Option (ArgumentError κ)) with
    | some e =>
        rw [differentiate_of_mismatch hm]
        exact h
    | none =>
        have hroom : room = free := by
          by_contra hne
          rw [firstMismatch, if_neg (by omega)] at hm
          cases hm
        rw [firstMismatch, if_pos (by omega)] at hm
        obtain ⟨hpoint, hparams⟩ := lengths_of_firstMismatch hm
        obtain ⟨-, -, -, -, -, hruns⟩ := h.differentiate ht h₀ hdim (hpoint.trans hfree)
          (hparams.trans hcount)
        rw [hroom]
        exact hruns
  cases call with
  | evaluate point params =>
      cases hm : (firstMismatch [(.point, p.free, point.length),
          (.parameters, p.parameterCount, params.length)] : Option (ArgumentError κ)) with
      | some e =>
          rw [ParametricTerm.after, evaluate_of_mismatch hm]
          exact h
      | none =>
          obtain ⟨hpoint, hparams⟩ := lengths_of_firstMismatch hm
          exact (h.evaluate ht h₀ hdim (hpoint.trans hfree) (hparams.trans hcount)).2
  | differentiate point params room => exact hdifferentiate point params room
  | gradient point params => exact hdifferentiate point params p.free

/-- What keeps the invariant returns what every full compilation with its engine does. -/
theorem Runs.refines
    {c : CompiledTerm κ α}
    (hdim : free + count = c₀.dimension)
    (hc : CompiledTerm.Of t c)
    (hengine : c.engine = c₀.engine) :
    Refines free count c p := by
  have hsound := ht.reachable.sound
  have hfree := h.free
  have hcount := h.parameterCount ht h₀ hdim
  have hof := h.of ht h₀
  have hsame := hof.sameResults hsound hc (hengine.trans h.engine.symm)
  constructor
  · intro point params hpoint hparams
    have hlen : (point ++ params).length = p.inner.dimension := by
      rw [List.length_append, h.dimension_inner ht h₀]
      omega
    obtain ⟨value, hvalue⟩ := hof.exists_evaluate ht hlen
    exact ⟨value, (hsame.evaluate _).symm.trans hvalue,
      (h.evaluate ht h₀ hdim hpoint hparams).1.trans hvalue⟩
  · intro point params buffer hpoint hparams hbuffer
    obtain ⟨value, full, hfull, hgradient, hresult, -⟩ := h.differentiate ht h₀ hdim hpoint hparams
    refine ⟨value, full, hfull.trans hdim.symm, (hsame.gradient _).symm.trans hgradient, ?_⟩
    rw [hbuffer, hresult]
    exact ⟨rfl, rfl⟩
  · intro point params e hm
    exact evaluate_of_mismatch (hfree ▸ hcount ▸ hm)
  · intro point params buffer e hm
    have hrefused := differentiate_of_mismatch (p := p) (hfree ▸ hcount ▸ hm)
    refine ⟨hrefused, ?_⟩
    rw [hrefused]
    rfl

/-- Whatever becomes of a parametric term in use keeps the invariant. -/
theorem Used.runs
    {p' : ParametricTerm κ α}
    (hdim : free + count = c₀.dimension)
    (hused : Used p p') :
    Runs c₀ free p' := by
  induction hused with
  | new => exact h
  | call _ call ih => exact ih.after ht h₀ hdim call

end Accepted
end Calls

section Results

variable {g : Graph κ α} {root : g.Term} {vs ps : List g.Variable} {options : Options}

theorem compile_eq_error_iff
    {e : Error κ} :
    compile g root vs ps options = .error e ↔
      CompiledTerm.compile g root (vs ++ ps) options = .error e := by
  rw [compile]
  cases CompiledTerm.compile g root (vs ++ ps) options with
  | error f =>
      rw [error_bind]
      constructor <;> (rintro ⟨⟩; rfl)
  | ok c => constructor <;> nofun

theorem exists_compile
    {c : CompiledTerm κ α}
    (h : CompiledTerm.compile g root (vs ++ ps) options = .ok c) :
    ∃ p, compile g root vs ps options = .ok p := by
  cases hp : compile g root vs ps options with
  | error e => cases h.symm.trans (compile_eq_error_iff.1 hp)
  | ok p => exact ⟨p, rfl⟩

/-- A compiled parametric term holds the full compilation. -/
theorem of_compile
    {p₀ : ParametricTerm κ α}
    (h : compile g root vs ps options = .ok p₀) :
    ∃ c₀, CompiledTerm.compile g root (vs ++ ps) options = .ok c₀ ∧
      vs.length + ps.length = c₀.dimension ∧ Runs c₀ vs.length p₀ := by
  obtain ⟨c₀, hc₀, h⟩ := bind_eq_ok_iff.1 h
  obtain rfl := Except.ok.inj h
  have hdim : (vs ++ ps).length = c₀.dimension := by
    rcases CompiledTerm.compile_cases root (vs ++ ps) options with
      ⟨e, he, -⟩ | ⟨-, ⟨-, he⟩ | ⟨-, c, hc, hdim⟩⟩
    · cases hc₀.symm.trans he
    · cases hc₀.symm.trans he
    · obtain rfl := Except.ok.inj (hc₀.symm.trans hc)
      exact hdim.symm
  refine ⟨c₀, hc₀, by rw [← hdim, List.length_append], .new, rfl, rfl, ?_, ?_⟩
  · rw [← hdim, List.length_replicate]
  · rw [← hdim, List.length_replicate]

/-- A parametric term fails to compile just where the full compilation over its free variables and
its parameters does, with the same error.  However it was used, it returns what every new full
compilation returns at the point followed by the parameters, with the leading components of the
gradient, and lists of wrong lengths have no effect.  Which of the variables are free, and in what
order they are listed, changes no value and no component of a free variable. -/
theorem parametric_refines_full :
    (∀ e, compile g root vs ps options = .error e ↔
      CompiledTerm.compile g root (vs ++ ps) options = .error e) ∧
    (∀ p₀ p c, compile g root vs ps options = .ok p₀ → Used p₀ p →
      CompiledTerm.compile g root (vs ++ ps) options = .ok c →
        Refines vs.length ps.length c p) ∧
    ∀ (vs' ps' : List g.Variable) (p₀ p : ParametricTerm κ α), (vs' ++ ps').Perm (vs ++ ps) →
      compile g root vs ps options = .ok p₀ → Used p₀ p →
        ∃ p₀', compile g root vs' ps' options = .ok p₀' ∧ ∀ p', Used p₀' p' →
          ∀ x : g.Variable → α, ∃ (value : α) (partials : g.Variable → α),
            (p.evaluate (vs.map x) (ps.map x)).1 = .ok value ∧
            (p'.evaluate (vs'.map x) (ps'.map x)).1 = .ok value ∧
            (p.gradient (vs.map x) (ps.map x)).1 = .ok (value, vs.map partials) ∧
            (p'.gradient (vs'.map x) (ps'.map x)).1 = .ok (value, vs'.map partials) := by
  refine ⟨fun e => compile_eq_error_iff, ?_, ?_⟩
  · intro p₀ p c hcompile hused hc
    obtain ⟨c₀, hc₀, hdim, hruns⟩ := of_compile hcompile
    obtain ⟨l, hl, hof₀, hengine₀⟩ := CompiledTerm.of_compile hc₀
    obtain ⟨l', hl', hof, hengine⟩ := CompiledTerm.of_compile hc
    obtain rfl := Except.ok.inj (hl.symm.trans hl')
    have ht : l.tape.Accepted := .ofTerm hl
    exact (hused.runs ht hof₀ hruns hdim).refines ht hof₀ hdim hof (hengine.trans hengine₀.symm)
  · intro vs' ps' p₀ p hperm hcompile hused
    obtain ⟨c₀, hc₀, hdim, hruns⟩ := of_compile hcompile
    obtain ⟨l, hl, hof₀, hengine₀⟩ := CompiledTerm.of_compile hc₀
    obtain ⟨c', hc'⟩ := CompiledTerm.exists_compile_of_perm hperm hc₀
    obtain ⟨p₀', hcompile'⟩ := exists_compile hc'
    refine ⟨p₀', hcompile', fun p' hused' x => ?_⟩
    obtain ⟨c₀', hc₀', hdim', hruns'⟩ := of_compile hcompile'
    obtain ⟨l', hl', hof₀', hengine₀'⟩ := CompiledTerm.of_compile hc₀'
    have ht : l.tape.Accepted := .ofTerm hl
    have ht' : l'.tape.Accepted := .ofTerm hl'
    have hp := hused.runs ht hof₀ hruns hdim
    have hp' := hused'.runs ht' hof₀' hruns' hdim'
    have hengine : p'.inner.engine = p.inner.engine := by
      rw [hp'.engine, hp.engine, hengine₀', hengine₀]
    obtain ⟨value, partials, hevaluate, hevaluate', hgradient, hgradient'⟩ :=
      CompiledTerm.results_of_perm hperm hc₀ hp.used hc₀' hp'.used hengine x
    rw [List.map_append] at hevaluate hevaluate'
    rw [List.map_append, List.map_append] at hgradient hgradient'
    obtain ⟨h₁, h₂⟩ := hp.results ht hof₀ hdim (List.length_map x) (List.length_map x)
      (List.length_map partials) hevaluate hgradient
    obtain ⟨h₁', h₂'⟩ := hp'.results ht' hof₀' hdim' (List.length_map x) (List.length_map x)
      (List.length_map partials) hevaluate' hgradient'
    exact ⟨value, partials, h₁, h₁', h₂, h₂'⟩

section Namesakes

open CompiledTerm (namesakes)

theorem lowerable_namesakes :
    namesakes.Lowerable ⟨2, by decide⟩ [namesakes.left, namesakes.right] := by
  apply Graph.lowerable_of_graph_fits
  · decide
  · rintro ⟨t, ht⟩
    have hvars : ∀ t : namesakes.Term, namesakes.isVariable t = true →
        t = namesakes.left.1 ∨ t = namesakes.right.1 := by decide
    rcases hvars t ht with rfl | rfl
    · exact List.mem_cons_self
    · exact List.mem_cons_of_mem _ List.mem_cons_self
  · decide
  · decide

/-- A product of two variables, one of them a parameter.  After a refused call and an accepted one
it returns what the full compilation does, and what it returns with both variables free, listed the
other way round. -/
theorem parametric_refines_full_namesakes :
    ∃ p₀ c, compile namesakes ⟨2, by decide⟩ [namesakes.left] [namesakes.right] {} = .ok p₀ ∧
      CompiledTerm.compile namesakes ⟨2, by decide⟩ [namesakes.left, namesakes.right] {} = .ok c ∧
      Refines 1 1 c ((p₀.after (.evaluate [5] [])).after (.gradient [5] [7])) ∧
      ∃ p₀', compile namesakes ⟨2, by decide⟩ [namesakes.right, namesakes.left] [] {} = .ok p₀' ∧
        ∃ value a b,
          (((p₀.after (.evaluate [5] [])).after (.gradient [5] [7])).gradient [3] [4]).1 =
            .ok (value, [a]) ∧
          (p₀'.gradient [4, 3] []).1 = .ok (value, [b, a]) := by
  have hcompiled : ∃ c, CompiledTerm.compile namesakes ⟨2, by decide⟩
      [namesakes.left, namesakes.right] {} = .ok c :=
    CompiledTerm.exists_compile lowerable_namesakes rfl
  obtain ⟨c, hc⟩ := hcompiled
  have hbound : ∃ p₀, compile namesakes ⟨2, by decide⟩ [namesakes.left] [namesakes.right] {} =
      .ok p₀ :=
    exists_compile hc
  obtain ⟨p₀, hp₀⟩ := hbound
  have hused : Used p₀ ((p₀.after (.evaluate [5] [])).after (.gradient [5] [7])) :=
    .call (.call .new (.evaluate [5] [])) (.gradient [5] [7])
  have hrefines := parametric_refines_full.2.1 p₀ _ c hp₀ hused hc
  have hperm : ([namesakes.right, namesakes.left] ++ []).Perm
      ([namesakes.left] ++ [namesakes.right]) :=
    .swap _ _ _
  obtain ⟨p₀', hp₀', hsame⟩ := parametric_refines_full.2.2 _ _ p₀ _ hperm hp₀ hused
  obtain ⟨value, partials, -, -, hgradient, hgradient'⟩ :=
    hsame p₀' .new fun y => ((y.1.val + 3 : Nat) : Int)
  exact ⟨p₀, c, hp₀, hc, hrefines, p₀', hp₀', value, _, _, hgradient, hgradient'⟩

end Namesakes

end Results
end ParametricTerm
end ReverseMode
