import ReverseMode.Proofs.Compiled.Agreement
import ReverseMode.Proofs.Compiled.Safety
import ReverseMode.Proofs.Tape.Encoding

/-!
# Tapes that were stored

**Input.**  A tape that is written and read back, and the compiled terms made from what was read.

**Argument.**  Reading gives back the tape that was written (`Tape.decode_eq_ok_iff`), with the
plan that both engines run.  So a compiled term on it is one on the tape that was written, and it
returns what that tape returns when it is swept, up to the shortcuts of the generated engine.

**Results.**
* `exists_ofTape_of_decode`: both engines take a tape that was read.
* `storage_roundTrip`: writing and reading are inverse to each other, and compiled terms on what was
  read return what the written tape does, where no sum of two slots is one of two `-0` and squares
  are products.
* `restored_disagrees_logSum`: at a sum of two `-0` the generated engine does not.
-/

namespace ReverseMode

namespace Tape

/-- At a point, no sum of two slots is one of two `-0`, and the power 2 gives the product. -/
structure PlainAt (t : Tape Float Float) (point : List Float) : Prop where
  sum : ∀ v, t.Valuation point v → ∀ (i : Nat) s a b, t.slots[i]? = some s → s.op = .sum →
    t.sourcesIn s.inputs = [a, b] → ¬ (v a = -0.0 ∧ v b = -0.0)
  square : ∀ v, t.Valuation point v → ∀ (i : Nat) s a, t.slots[i]? = some s →
    s.op = .constPower 2.0 → t.sourcesIn s.inputs = [a] → Float.pow (v a) 2.0 = v a * v a

theorem PlainAt.shortcutsExact
    {t : Tape Float Float} {point : List Float} {v : Nat → Float}
    (h : t.PlainAt point)
    (hv : t.Valuation point v) :
    t.ShortcutsExact v := by
  intro i s hs
  generalize hsources : t.sourcesIn s.inputs = sources
  cases hop : s.op with
  | sum =>
      match sources with
      | [a, b] => exact Binary64.zero_add_add_iff.2 (h.sum v hv i s a b hs hop hsources)
      | [] | [_] | _ :: _ :: _ :: _ => trivial
  | constPower k =>
      match sources with
      | [a] =>
          intro _ htwo
          obtain rfl := Binary64.eq_two_of_isTwo htwo
          exact h.square v hv i s a hs hop hsources
      | [] | _ :: _ :: _ => trivial
  | _ => trivial

end Tape

namespace CompiledTerm

section Tapes

variable {κ α : Type} [Exponent κ] [Scalar κ α]

/-- Any engine takes a tape that calls no functions. -/
theorem exists_ofTape
    {t : Tape κ α} {vs : List Nat}
    (ht : t.Sound)
    (hcount : t.callbackCount = 0)
    (hpos : 0 < t.size)
    (hlen : t.dimension = vs.length)
    (options : Options) :
    ∃ c, ofTape t vs options = .ok c := by
  have hempty : t.isEmpty = false := by
    rw [Tape.isEmpty, Array.isEmpty_eq_false_iff]
    exact Array.ne_empty_of_size_pos hpos
  suffices hassemble : ∃ c, assemble t vs options = .ok c by
    obtain ⟨c, hc⟩ := hassemble
    exact ⟨c, ofTape_eq_ok_iff.2 ⟨hlen, hempty, hc⟩⟩
  obtain ⟨engine, allow⟩ := options
  cases engine with
  | interpreted => exact ⟨_, rfl⟩
  | generated =>
      have hallow : allow = true ∨ t.callbackCount = 0 := .inr hcount
      obtain ⟨p, hp⟩ :=
        Program.exists_ofTape ht (Tape.handlesRegistered_of_callbackCount hcount) hallow
      exact ⟨{ tape := t, vars := vs, executor := .generated p }, by rw [assemble, hp]; rfl⟩

end Tapes

section Results

open Data Tape

variable {d : Data} {t : Tape Float Float} {vs : List Nat} {point : List Float}

/-- Both engines take a tape that was read. -/
theorem exists_ofTape_of_decode
    (h : decode d = .ok t)
    (hlen : t.dimension = vs.length)
    (options : Options) :
    ∃ c, ofTape t vs options = .ok c := by
  have haccepted := accepted_of_decode h
  exact exists_ofTape haccepted.reachable.sound (restored_of_decode h).2.1 haccepted.size_pos hlen
    options

/-- A tape that was read has a value and a gradient at each point. -/
theorem exists_results_of_decode
    (h : decode d = .ok t)
    (hpoint : point.length = t.dimension) :
    ∃ x gradient, (t.evaluate point).1 = .ok x ∧
      (t.differentiate point t.dimension).1 = .ok (x, gradient) := by
  have haccepted := accepted_of_decode h
  obtain ⟨x, gradient, hx, -⟩ := haccepted.safe.differentiate point hpoint
  exact ⟨x, gradient, evaluate_of_differentiate haccepted.reachable.sound hx, hx⟩

/-- A compiled term on a tape that was read returns what the tape does: with the interpreted engine
always, with the generated one where its shortcuts are exact. -/
theorem results_of_decode
    {options : Options} {c₀ c : CompiledTerm Float Float}
    (h : decode d = .ok t)
    (hpoint : point.length = t.dimension)
    (hbuild : ofTape t vs options = .ok c₀)
    (hused : Used c₀ c)
    (hplain : c.engine = .generated → t.PlainAt point) :
    (c.evaluate point).1 = (t.evaluate point).1.mapError .fault ∧
      (c.gradient point).1 = (t.differentiate point t.dimension).1.mapError .fault := by
  have haccepted := accepted_of_decode h
  have ht := haccepted.reachable.sound
  have hof := hused.of ht (of_assemble (ofTape_eq_ok_iff.1 hbuild).2.2).1
  cases hengine : c.engine with
  | interpreted => exact hof.results_of_interpreted ht hpoint hengine
  | generated =>
      exact hof.results_of_exact Binary64.mul_one ht haccepted.handlesRegistered
        (tiled_of_isWellFormed (restored_of_decode h).1) haccepted.size_pos hpoint
        fun v hv => (hplain hengine).shortcutsExact hv

/-- Writing a tape succeeds unless functions are registered with it.  What was written reads back
where the tape is well formed, calls no functions and has finite numbers only, and then it reads
back as the same tape, buffers and all.  Data that reads as a tape agrees with the data that this
tape is written as.

A compiled term on a tape that was read returns what the tape itself does and what every other on
it with the same engine does, whatever was done with it before.  With the generated engine it does
so where no sum of two slots is one of two `-0` and squares are products. -/
theorem storage_roundTrip (t : Tape Float Float) (d : Data) :
    ((∃ d', encode t = .ok d') ↔ t.hasCallbacks = false) ∧
    (t.InWords → encode t = .ok d →
      ((∃ u, decode d = .ok u) ↔ t.isWellFormed = true ∧ t.callbackCount = 0 ∧ t.AllFinite) ∧
        ∀ u, decode d = .ok u → u = t) ∧
    (decode d = .ok t →
      (∃ d', encode t = .ok d' ∧ TapesAgree d d' ∧ decode d' = .ok t) ∧
      ∀ vs : List Nat, t.dimension = vs.length →
        (∀ options, ∃ c, ofTape t vs options = .ok c) ∧
        (∀ options options' c₀ c c', ofTape t vs options = .ok c₀ → Used c₀ c →
          ofTape t vs options' = .ok c' → c'.engine = c.engine → SameResults c c') ∧
        ∀ point, point.length = vs.length → ∃ x gradient,
          (t.evaluate point).1 = .ok x ∧
          (t.differentiate point vs.length).1 = .ok (x, gradient) ∧
          ∀ options c₀ c, ofTape t vs options = .ok c₀ → Used c₀ c →
            (c.engine = .generated → t.PlainAt point) →
              (c.evaluate point).1 = .ok x ∧ (c.gradient point).1 = .ok (x, gradient)) := by
  refine ⟨exists_encode_iff, ?_, fun hd => ⟨encode_of_decode hd, fun vs hlen => ?_⟩⟩
  · intro ht hd
    constructor
    · constructor
      · rintro ⟨u, hu⟩
        exact ((decode_eq_ok_iff ht hd).1 hu).1
      · intro h
        exact ⟨t, (decode_eq_ok_iff ht hd).2 ⟨h, rfl⟩⟩
    · exact fun u hu => ((decode_eq_ok_iff ht hd).1 hu).2
  · refine ⟨exists_ofTape_of_decode hd hlen, ?_, ?_⟩
    · intro options options' c₀ c c' hbuild hused hbuild' hengine
      have ht := (reachable_of_decode hd).sound
      have hof := hused.of ht (of_assemble (ofTape_eq_ok_iff.1 hbuild).2.2).1
      have hof' := (of_assemble (ofTape_eq_ok_iff.1 hbuild').2.2).1
      exact hof.sameResults ht hof' hengine
    · intro point hpoint
      obtain ⟨x, gradient, hx, hgradient⟩ := exists_results_of_decode hd (hpoint.trans hlen.symm)
      refine ⟨x, gradient, hx, hlen ▸ hgradient, ?_⟩
      intro options c₀ c hbuild hused hplain
      obtain ⟨hevaluate, hdifferentiate⟩ :=
        results_of_decode hd (hpoint.trans hlen.symm) hbuild hused hplain
      rw [hx] at hevaluate
      rw [hgradient] at hdifferentiate
      exact ⟨hevaluate, hdifferentiate⟩

/-- The tape of the logarithm of a sum. -/
def logSumTape : Tape Float Float where
  slots :=
    #[⟨.input, 0, 0, ⟨0, 0⟩⟩, ⟨.input, 0, 0, ⟨0, 0⟩⟩, ⟨.sum, 0, 0, ⟨0, 2⟩⟩, ⟨.ln, 0, 0, ⟨2, 1⟩⟩]
  edges := #[⟨0, 0⟩, ⟨1, 0⟩, ⟨2, 0⟩]
  dimension := 2

example : (ofTerm logSum logSum.root [logSum.x, logSum.y]).map (·.tape) = .ok logSumTape := by
  cbv

theorem inWords_logSumTape : logSumTape.InWords := by
  constructor
  · decide
  · decide

theorem allFinite_logSumTape : logSumTape.AllFinite := by
  constructor
  · intro s hs k hk
    simp [logSumTape] at hs
    rcases hs with rfl | rfl | rfl <;> cases hk
  · decide
  · decide
  · decide

theorem isWellFormed_logSumTape : logSumTape.isWellFormed = true := by
  decide +kernel

/-- Its only sum has an operand 0 there, and it has no power. -/
theorem plainAt_logSumTape : logSumTape.PlainAt [-0.0, 0.0] := by
  have hsums : ∀ s ∈ logSumTape.slots, s.op = .sum → logSumTape.sourcesIn s.inputs = [0, 1] := by
    decide +kernel
  have hpowers : ∀ s ∈ logSumTape.slots, s.op ≠ .constPower 2.0 := by
    decide +kernel
  constructor
  · rintro v hv i s a b hs hop hsources ⟨-, hb⟩
    obtain ⟨-, rfl⟩ : 0 = a ∧ 1 = b := by
      simpa using (hsums s (Array.mem_of_getElem? hs) hop).symm.trans hsources
    have hone : some (0.0 : Float) = some (v 1) := hv.loaded 1 (by decide)
    rw [← Option.some.inj hone] at hb
    exact absurd hb (by decide)
  · intro v _ i s a hs hop _
    exact absurd hop (hpowers s (Array.mem_of_getElem? hs))

/-- The tape of the logarithm of a sum is written, reads back, and is run by both engines with the
results of the tape at `-0` and `0`. -/
theorem storage_roundTrip_logSum :
    logSumTape.InWords ∧ logSumTape.PlainAt [-0.0, 0.0] ∧
      ∃ d x gradient i j, encode logSumTape = .ok d ∧ decode d = .ok logSumTape ∧
        (logSumTape.differentiate [-0.0, 0.0] 2).1 = .ok (x, gradient) ∧
        ofTape logSumTape [0, 1] { engine := .interpreted } = .ok i ∧
        ofTape logSumTape [0, 1] { engine := .generated } = .ok j ∧
        (i.gradient [-0.0, 0.0]).1 = .ok (x, gradient) ∧
        (j.gradient [-0.0, 0.0]).1 = .ok (x, gradient) := by
  obtain ⟨d, hd⟩ := (storage_roundTrip logSumTape .null).1.2 rfl
  obtain ⟨-, hread, hrun⟩ := storage_roundTrip logSumTape d
  obtain ⟨⟨-, hreads⟩, hsame⟩ := hread inWords_logSumTape hd
  obtain ⟨u, hu⟩ := hreads ⟨isWellFormed_logSumTape, rfl, allFinite_logSumTape⟩
  obtain rfl := hsame u hu
  obtain ⟨hbuild, -, hresults⟩ := (hrun hu).2 [0, 1] rfl
  obtain ⟨x, gradient, -, hgradient, hall⟩ := hresults [-0.0, 0.0] rfl
  obtain ⟨i, hi⟩ := hbuild { engine := .interpreted }
  obtain ⟨j, hj⟩ := hbuild { engine := .generated }
  exact ⟨inWords_logSumTape, plainAt_logSumTape, d, x, gradient, i, j, hd, hu, hgradient, hi, hj,
    (hall _ i i hi .new fun _ => plainAt_logSumTape).2,
    (hall _ j j hj .new fun _ => plainAt_logSumTape).2⟩

/-- The gradient that an engine computes on the tape of some data. -/
def restoredGradient? (engine : Engine) (vs : List Nat) (point : List Float) (d : Data) :
    Option (List Float) := do
  let t ← (decode d).toOption
  let c ← (ofTape t vs { engine := engine }).toOption
  let result ← (c.gradient point).1.toOption
  return result.2

/-- At `-0` and `-0` the generated engine returns infinities on it of the sign opposite to those
that the tape has. -/
theorem restored_disagrees_logSum :
    ∃ d, encode logSumTape = .ok d ∧ decode d = .ok logSumTape ∧
      (logSumTape.differentiate [-0.0, -0.0] 2).1.toOption.map (·.2) =
        some [1.0 / 0.0, 1.0 / 0.0] ∧
      restoredGradient? .generated [0, 1] [-0.0, -0.0] d = some [-1.0 / 0.0, -1.0 / 0.0] := by
  have hd : encode logSumTape = .ok (written logSumTape) := encode_eq_ok_iff.2 ⟨rfl, rfl⟩
  have hread : decode (written logSumTape) = .ok logSumTape :=
    (decode_eq_ok_iff inWords_logSumTape hd).2
      ⟨⟨isWellFormed_logSumTape, rfl, allFinite_logSumTape⟩, rfl⟩
  refine ⟨_, hd, hread, by decide +kernel, ?_⟩
  rw [restoredGradient?, hread]
  decide +kernel

end Results
end CompiledTerm
end ReverseMode
