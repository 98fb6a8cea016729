import ReverseMode.Proofs.Binary64
import ReverseMode.Proofs.Compiled.History
import ReverseMode.Proofs.Compiled.Outcome
import ReverseMode.Proofs.Lowering.Values
import ReverseMode.Proofs.Program.Refinement

/-!
# Where the engines agree in binary64

**Input.**  A term over binary64, a list that has its variables, and a point.

**Argument.**  The generated engine computes a sum of two operands without a leading 0, and a
square as a product.  Where the values of the term make these shortcuts exact, both engines solve
the same equations.  A leading 0 matters where both operands are `-0` and nowhere else.

**Results.**
* `Of.results_of_exact`: whatever runs the plan of a tape returns the same where the shortcuts are
  exact.
* `engines_agree`: both engines return the same, bit for bit, where no sum of two terms is one of
  two `-0` and squares are products.
* `engines_disagree_logSum`: at a sum of two `-0` they return infinities of opposite signs.
-/

namespace ReverseMode

variable {κ α : Type}

namespace Graph

variable [Exponent κ] {g : Graph κ α} {root : g.Term} {vs : List g.Variable} {tape : Tape κ α}
  {done : List g.Term} {point : List α} {v : Nat → α}

section Shortcuts

variable [Scalar κ α]

/-- The shortcuts for the nodes of a term are exact when its subterms have the values `f`. -/
structure ShortcutsExact (root : g.Term) (f : g.Term → α) : Prop where
  sum : ∀ t a b, g.Reaches root t → g.node t = .sum [a, b] → 0 + f a + f b = f a + f b
  square : ∀ t a k, g.Reaches root t → g.node t = .constPower a k →
    Exponent.isOne k = false → Exponent.isTwo k = true → Scalar.powConst (f a) k = f a * f a

/-- The shortcut for the slot of a subterm is exact at the values of its operands. -/
theorem ShortcutsExact.of_stands
    {f : g.Term → α} {c : Callbacks α} {t : g.Term} {op : Op κ} {stored : α}
    (h : ShortcutsExact root f)
    (ht : g.Reaches root t)
    (hstands : Stands c (g.node t) op stored) :
    op.ShortcutExact ((g.operands t).map f) := by
  rw [operands]
  generalize hn : g.node t = n at hstands
  cases hstands with
  | sum ts =>
      rcases ts with _ | ⟨a, _ | ⟨b, _ | ⟨_, _⟩⟩⟩
      · trivial
      · trivial
      · exact h.sum t a b ht hn
      · trivial
  | constPower a k => exact h.square t a k ht hn
  | _ => trivial

/-- The shortcuts that are exact for a term are exact for its tape. -/
theorem Represents.shortcutsExact
    (h : Represents root vs tape done)
    (hbelow : ∀ t ∈ done, g.Reaches root t)
    (hnodup : vs.Nodup)
    (hv : tape.Valuation point v)
    (hexact : ShortcutsExact root (g.value (g.assign vs point))) :
    tape.ShortcutsExact v := by
  intro i s hs
  rcases h.op_cases hs with hop | ⟨t, ht, hstands, hoperands⟩ | hop
  · rw [hop]
    trivial
  · have hargs : (tape.sourcesIn s.inputs).map v =
        (g.operands t).map (g.value (g.assign vs point)) :=
      map_eq_of_getElem? hoperands fun _ _ _ hu => h.value_eq hnodup hv hu
    rw [hargs]
    exact hexact.of_stands (hbelow t ht) hstands
  · rw [hop]
    exact Op.shortcutExact_constPower_one _

/-- In binary64 a term has exact shortcuts where it sums no two `-0` and squares are products. -/
theorem shortcutsExact_of_binary64
    {g : Graph Float Float} {root : g.Term} {f : g.Term → Float}
    (hsums : ∀ t a b, g.Reaches root t → g.node t = .sum [a, b] → ¬ (f a = -0.0 ∧ f b = -0.0))
    (hsquares : ∀ t a, g.Reaches root t → g.node t = .constPower a 2.0 →
      Float.pow (f a) 2.0 = f a * f a) :
    ShortcutsExact root f := by
  constructor
  · intro t a b ht hn
    exact Binary64.zero_add_add_iff.2 (hsums t a b ht hn)
  · intro t a k ht hn _ htwo
    obtain rfl := Binary64.eq_two_of_isTwo htwo
    exact hsquares t a ht hn

end Shortcuts
end Graph

namespace CompiledTerm

section Tapes

variable [Exponent κ] [Scalar κ α] {t : Tape κ α} {c : CompiledTerm κ α} {point : List α}

/-- With the interpreted engine, whatever runs the plan of a tape returns what the tape does. -/
theorem Of.results_of_interpreted
    (ht : t.Sound)
    (hlen : point.length = t.dimension)
    (h : Of t c)
    (hengine : c.engine = .interpreted) :
    (c.evaluate point).1 = (t.evaluate point).1.mapError .fault ∧
      (c.gradient point).1 = (t.differentiate point t.dimension).1.mapError .fault := by
  have hdim := h.dimension
  have hevaluate := Tape.evaluate_of_fresh_eq ht h.fresh point
  have hdifferentiate := Tape.differentiate_of_fresh_eq ht h.fresh point t.dimension
  have hpoint := hlen.trans hdim.symm
  have hc := executor_of_interpreted hengine
  rw [gradient, hdim, evaluate_interpreted hc hpoint, differentiate_interpreted hc hpoint hdim.symm,
    hevaluate, hdifferentiate]
  exact ⟨rfl, rfl⟩

/-- With the generated engine it returns what a program of the tape does. -/
theorem Of.results_of_generated
    (hlen : point.length = t.dimension)
    (h : Of t c)
    (hengine : c.engine = .generated) :
    ∃ p, Program.Of t p ∧
      (c.evaluate point).1 = (p.evaluate point).1.mapError .fault ∧
      (c.gradient point).1 = (p.differentiate point t.dimension).1.mapError .fault := by
  have hdim := h.dimension
  have hpoint := hlen.trans hdim.symm
  obtain ⟨p, hc⟩ := exists_program hengine
  rw [gradient, hdim, evaluate_generated hc hpoint, differentiate_generated hc hpoint hdim.symm]
  exact ⟨p, h.program p hc, rfl, rfl⟩

/-- Where the shortcuts are exact, whatever runs the plan of a tape returns what the tape does. -/
theorem Of.results_of_exact
    (hmul : ∀ x : α, x * 1 = x)
    (ht : t.Sound)
    (hreg : t.HandlesRegistered)
    (htiled : t.Tiled)
    (hpos : 0 < t.size)
    (hlen : point.length = t.dimension)
    (hexact : ∀ v, t.Valuation point v → t.ShortcutsExact v)
    (h : Of t c) :
    (c.evaluate point).1 = (t.evaluate point).1.mapError .fault ∧
      (c.gradient point).1 = (t.differentiate point t.dimension).1.mapError .fault := by
  cases hengine : c.engine with
  | interpreted => exact h.results_of_interpreted ht hlen hengine
  | generated =>
      obtain ⟨p, hp, hevaluate, hgradient⟩ := h.results_of_generated hlen hengine
      obtain ⟨u, hu, -, hval⟩ := Tape.evaluate_spec ht hreg hpos hlen
      obtain ⟨w, hw, -, hwval, hadj, -⟩ := Tape.differentiate_spec ht hreg htiled hpos hlen
      obtain ⟨q, hq, -⟩ := hp.differentiate_of_exact hmul ht hreg htiled.callsApart hpos hlen hwval
        (hexact _ hwval) hadj
      rw [hevaluate, hgradient, hp.evaluate_of_exact ht hpos hlen hval (hexact _ hval), hu, hq, hw]
      exact ⟨rfl, rfl⟩

end Tapes

section Results

open ReverseMode.Graph

/-- A term that fits is compiled for both engines.  If no sum of two terms is one of two `-0`, and
the power 2 gives the product, then there are one value and one gradient that all that is compiled
from the term returns, whatever its engine and whatever was done with it before.  Sums of more
terms need nothing: the engines compute them alike. -/
theorem engines_agree
    {g : Graph Float Float} {root : g.Term} {vs : List g.Variable} {point : List Float}
    (hl : g.Lowerable root vs)
    (hlen : point.length = vs.length)
    (hsums : ∀ t a b, g.Reaches root t → g.node t = .sum [a, b] →
      ¬ (g.value (g.assign vs point) a = -0.0 ∧ g.value (g.assign vs point) b = -0.0))
    (hsquares : ∀ t a, g.Reaches root t → g.node t = .constPower a 2.0 →
      Float.pow (g.value (g.assign vs point) a) 2.0 =
        g.value (g.assign vs point) a * g.value (g.assign vs point) a) :
    (∀ engine, ∃ c, compile g root vs { engine := engine } = .ok c) ∧
      ∃ gradient, gradient.length = vs.length ∧
        ∀ options c₀ c, compile g root vs options = .ok c₀ → Used c₀ c →
          (c.evaluate point).1 = .ok (g.value (g.assign vs point) root) ∧
            (c.gradient point).1 = .ok (g.value (g.assign vs point) root, gradient) := by
  obtain ⟨l, hofTerm, s, done, hfinished, hends⟩ | ⟨e, -, hrefused⟩ := ofTerm_outcome root vs
  · have h := hfinished.represents hends hofTerm hl.edges_fit
    have hdim := h.layout.dimension
    have hlen' := hlen.trans hdim.symm
    have hexact : ∀ v, l.tape.Valuation point v → l.tape.ShortcutsExact v := by
      intro v hv
      refine h.shortcutsExact (fun t ht => ?_) hl.nodup hv
        (shortcutsExact_of_binary64 hsums hsquares)
      exact (Graph.mem_computedBelow.1 (hfinished.progress.below t ht)).1
    obtain ⟨u, hu, -, hval⟩ := Tape.evaluate_spec h.sound h.handlesRegistered h.size_pos hlen'
    obtain ⟨w, hw, -, hwval, -, -⟩ := Tape.differentiate_spec h.sound h.handlesRegistered h.tiled
      h.size_pos hlen'
    rw [h.value_output hl.nodup hval] at hu
    rw [h.value_output hl.nodup hwval] at hw
    refine ⟨fun engine => exists_compile hl rfl, (List.range l.tape.dimension).map w.adjoint,
      by simp [hdim], ?_⟩
    intro options c₀ c hcompile hused
    have hbuild : (Source.term g root vs).build options = .ok c₀ := hcompile
    obtain ⟨t, us, ⟨l', hofTerm', rfl, -⟩, hassemble⟩ := Source.build_eq_ok_iff.1 hbuild
    obtain rfl := Except.ok.inj (hofTerm.symm.trans hofTerm')
    have hof := hused.of h.sound (of_assemble hassemble).1
    obtain ⟨hevaluate, hgradient⟩ := hof.results_of_exact Binary64.mul_one h.sound
      h.handlesRegistered h.tiled h.size_pos hlen' hexact
    rw [hevaluate, hgradient, hu, hw]
    exact ⟨rfl, rfl⟩
  · exact absurd hrefused hl.not_refusal

/-- The logarithm of a sum. -/
def logSum : Graph Float Float where
  nodes := #[.var none, .var none, .sum [0, 1], .ln 2]
  node_ok := by decide

def logSum.x : logSum.Variable := ⟨⟨0, by decide⟩, by cbv⟩

def logSum.y : logSum.Variable := ⟨⟨1, by decide⟩, by cbv⟩

def logSum.root : logSum.Term := ⟨3, by decide⟩

theorem lowerable_logSum : logSum.Lowerable logSum.root [logSum.x, logSum.y] := by
  apply lowerable_of_graph_fits
  · decide
  · rintro ⟨t, ht⟩
    have hvars : ∀ t : logSum.Term, logSum.isVariable t = true →
        t = logSum.x.1 ∨ t = logSum.y.1 := by decide
    rcases hvars t ht with rfl | rfl
    · exact List.mem_cons_self
    · exact List.mem_cons_of_mem _ List.mem_cons_self
  · decide
  · decide

/-- It has one sum, and no power. -/
theorem logSum.node_cases (t : logSum.Term) :
    (∀ a b, logSum.node t = .sum [a, b] → a = logSum.x.1 ∧ b = logSum.y.1) ∧
      ∀ a k, logSum.node t ≠ .constPower a k := by
  obtain ⟨_ | _ | _ | _ | t, ht⟩ := t
  · exact ⟨nofun, nofun⟩
  · exact ⟨nofun, nofun⟩
  · refine ⟨fun a b hn => ?_, nofun⟩
    cases hn
    exact ⟨rfl, rfl⟩
  · exact ⟨nofun, nofun⟩
  · exact absurd ht (by simp [logSum, Graph.size])

/-- At `-0` and `0` both engines return the same. -/
theorem engines_agree_logSum :
    logSum.Lowerable logSum.root [logSum.x, logSum.y] ∧
      ∃ i j x gradient,
        compile logSum logSum.root [logSum.x, logSum.y] { engine := .interpreted } = .ok i ∧
        compile logSum logSum.root [logSum.x, logSum.y] { engine := .generated } = .ok j ∧
        (i.gradient [-0.0, 0.0]).1 = .ok (x, gradient) ∧
        (j.gradient [-0.0, 0.0]).1 = .ok (x, gradient) := by
  obtain ⟨hcompiles, gradient, -, hresults⟩ :=
    engines_agree lowerable_logSum (rfl : [(-0.0 : Float), 0.0].length = 2)
      (fun t a b _ hn => by
        obtain ⟨rfl, rfl⟩ := (logSum.node_cases t).1 a b hn
        decide +kernel)
      (fun t a _ hn => absurd hn ((logSum.node_cases t).2 a 2.0))
  obtain ⟨i, hi⟩ := hcompiles .interpreted
  obtain ⟨j, hj⟩ := hcompiles .generated
  exact ⟨lowerable_logSum, i, j, _, gradient, hi, hj, (hresults _ i i hi .new).2,
    (hresults _ j j hj .new).2⟩

/-- The gradient of the logarithm of a sum, as an engine computes it at a point. -/
def logSum.gradient? (engine : Engine) (point : List Float) : Option (List Float) := do
  let c ← (compile logSum logSum.root [logSum.x, logSum.y] { engine := engine }).toOption
  let result ← (c.gradient point).1.toOption
  return result.2

/-- At `-0` and `-0` they return infinities of opposite signs. -/
theorem engines_disagree_logSum :
    logSum.gradient? .interpreted [-0.0, -0.0] = some [1.0 / 0.0, 1.0 / 0.0] ∧
      logSum.gradient? .generated [-0.0, -0.0] = some [-1.0 / 0.0, -1.0 / 0.0] := by
  decide +kernel

end Results
end CompiledTerm
end ReverseMode
