import ReverseMode.Proofs.Binary64
import ReverseMode.Proofs.Lowering.Gradients
import ReverseMode.Proofs.Lowering.Shape

/-!
# Gradients of polynomials by dual numbers

A dual number `x + y * ε` with `ε * ε = 0` carries a value and a tangent, and the ring operations of
dual numbers carry tangents along.  So a tape of a polynomial computes derivatives when its values
are computed in dual numbers, without any rule for derivatives.

**Input.**
* `PowerRing`: scalars that are a commutative ring, with the constant powers of the ring.  The other
  operations stay arbitrary.
* A polynomial term: constants, zeros, variables, sums, products and powers with positive integers
  for constant exponents.  The derivative of a power has the exponent less one, which is computed as
  an exponent: it has to be exact.

**Argument.**  For each operation, its value at dual numbers has the value for its first component,
and for its second the sum of its partials times the second components of its operands
(`result_overDual`).  So values and tangents together solve the equations of the tape over dual
numbers, which have one solution.

**Results.**
* `Represents.valuation_overDual`: the values with the tangents along a variable are the values of
  the tape over dual numbers.
* `evaluate_overDual`: the tape of a polynomial at `p + ε * e k` has the value plus `ε` times the
  `k`-th component of the gradient.
-/

namespace ReverseMode

open TrivSqZeroExt

section Rings

/-- Exponents with the natural numbers that some of them are. -/
class Degrees (κ : Type) extends Exponent κ where
  degree? : κ → Option ℕ

/-- A positive integer. -/
def Degrees.Positive {κ : Type} [Degrees κ] (k : κ) : Prop :=
  ∃ n, degree? k = some (n + 1)

/-- An exponent that is no positive integer, or one from which 1 is taken without rounding. -/
def Degrees.ExactPred {κ : Type} [Degrees κ] (k : κ) : Prop :=
  ∀ n, degree? k = some (n + 1) → degree? (Exponent.pred k) = some n

instance : Degrees ℕ where
  degree? k := some k

/-- The natural number that a binary64 number is. -/
instance : Degrees Float where
  degree? k :=
    match k.toModel.unpack with
    | .zero _ => some 0
    | .finite .positive m e _ =>
        if 2 ^ (-e).toNat ∣ m then some (m * 2 ^ e.toNat / 2 ^ (-e).toNat) else none
    | _ => none

/-- Scalars that are a commutative ring, with the powers of the ring as their constant powers. -/
class PowerRing (κ : outParam Type) [Degrees κ] (R : Type) extends Scalar κ R, CommRing R where
  powConst_eq : ∀ (b : R) {k : κ} {n : ℕ}, Degrees.degree? k = some n → powConst b k = b ^ n
  ofExponent_eq : ∀ {k : κ} {n : ℕ}, Degrees.degree? k = some n → ofExponent k = (n : R)

instance : PowerRing ℕ ℤ where
  powConst_eq _ _ _ h := by cases h; rfl
  ofExponent_eq h := by cases h; rfl

/-- Rational numbers with binary64 exponents.  What polynomials do not use is 0. -/
instance : PowerRing Float ℚ where
  recip _ := 0
  pow _ _ := 0
  powConst b k := (Degrees.degree? k).elim 0 (b ^ ·)
  ofExponent k := (Degrees.degree? k).elim 0 Nat.cast
  exp _ := 0
  ln _ := 0
  undefined := 0
  powConst_eq _ _ _ h := by rw [h]; rfl
  ofExponent_eq h := by rw [h]; rfl

variable {κ R : Type} [Degrees κ] [PowerRing κ R]

/-- The dual numbers over a ring.  The operations that polynomials do not use look at first
components only. -/
instance : PowerRing κ (DualNumber R) where
  recip a := inl (Scalar.recip a.fst)
  pow a b := inl (Scalar.pow a.fst b.fst)
  powConst a k := (Degrees.degree? k).elim (inl (Scalar.powConst a.fst k)) (a ^ ·)
  ofExponent k := (Degrees.degree? k).elim (inl (Scalar.ofExponent k)) Nat.cast
  exp a := inl (Scalar.exp a.fst)
  ln a := inl (Scalar.ln a.fst)
  undefined := inl Scalar.undefined
  powConst_eq _ _ _ h := by rw [h]; rfl
  ofExponent_eq h := by rw [h]; rfl

theorem PowerRing.commutativeRing : Scalar.CommutativeRing R where
  add_assoc := add_assoc
  add_comm := add_comm
  zero_add := zero_add
  sub_add_cancel := sub_add_cancel
  mul_assoc := mul_assoc
  mul_comm := mul_comm
  one_mul := one_mul
  mul_add := mul_add

end Rings

section Duals

variable {κ R : Type} [Degrees κ] [PowerRing κ R]

/-- The dual number with a given value and tangent. -/
def dual (x y : R) : DualNumber R :=
  inl x + inr y

theorem dual_eq (x y : R) : dual x y = inl x + y • (DualNumber.eps : DualNumber R) := by
  rw [dual, DualNumber.inr_eq_smul_eps]

@[simp] theorem fst_dual (x y : R) : (dual x y).fst = x := by
  simp [dual]

@[simp] theorem snd_dual (x y : R) : (dual x y).snd = y := by
  simp [dual]

theorem foldl_dual
    (as : List ℕ) (v τ : ℕ → R) (x y : R) :
    (as.map fun j => dual (v j) (τ j)).foldl (· + ·) (dual x y) =
      dual ((as.map v).foldl (· + ·) x) (y + (as.map τ).sum) := by
  induction as generalizing x y with
  | nil => simp
  | cons j as ih =>
      have hadd : dual x y + dual (v j) (τ j) = dual (x + v j) (y + τ j) := by
        ext <;> simp
      simp only [List.map_cons, List.foldl_cons, List.sum_cons, hadd, ih, add_assoc]

theorem mul_dual (x y z w : R) : dual x y * dual z w = dual (x * z) (z * y + x * w) := by
  ext
  · simp
  · simp [mul_comm, add_comm]

theorem pow_dual (x y : R) (n : ℕ) :
    dual x y ^ (n + 1) = dual (x ^ (n + 1)) ((n + 1 : ℕ) * x ^ n * y) := by
  ext
  · simp
  · simp [snd_pow, mul_assoc]

end Duals

section Polynomials

variable {κ R : Type} [Degrees κ] [PowerRing κ R]

/-- The operations of polynomials whose derivatives have exact exponents, a power with an exponent
that counts as 1 among them. -/
def Op.Polynomial : Op κ → Prop
  | .const | .sum | .product => True
  | .constPower k =>
      Exponent.isOne k = true ∨
        ∃ n, Degrees.degree? k = some (n + 1) ∧ Degrees.degree? (Exponent.pred k) = some n
  | _ => False

/-- The kinds of node of polynomials. -/
def Node.Polynomial {ι : Type} : Node κ R ι → Prop
  | .const _ | .zero | .var _ | .sum _ | .product _ _ => True
  | .constPower _ k => Degrees.Positive k
  | _ => False

/-- A term that is built from constants, zeros, variables, sums, products and powers with positive
integers for constant exponents. -/
def Graph.Polynomial (g : Graph κ R) (root : g.Term) : Prop :=
  ∀ t, g.Reaches root t → (g.node t).Polynomial

/-- From the exponents of a term, 1 is taken without rounding. -/
def Graph.ExactExponents (g : Graph κ R) (root : g.Term) : Prop :=
  ∀ t a k, g.Reaches root t → g.node t = .constPower a k → Degrees.ExactPred k

theorem Stands.polynomial
    {c : Callbacks R} {ι : Type} {n : Node κ R ι} {op : Op κ} {stored : R}
    (h : Stands c n op stored)
    (hn : n.Polynomial)
    (hexact : ∀ a k, n = .constPower a k → Degrees.ExactPred k) :
    op.Polynomial := by
  cases h with
  | constPower a k =>
      obtain ⟨d, hd⟩ := hn
      exact .inr ⟨d, hd, hexact a k rfl d hd⟩
  | termPower | exp | ln | unary | binary | nary => exact hn.elim
  | _ => trivial

theorem Op.Polynomial.registeredIn
    {α : Type} {op : Op κ}
    (h : op.Polynomial)
    (c : Callbacks α) :
    op.RegisteredIn c := by
  cases op with
  | unary | binary | nary => exact h.elim
  | _ => trivial

/-- The derivative rules are the derivatives of the value rules: an operation has at dual numbers
the value that it has at their first components, with the partials there times the second ones. -/
theorem result_overDual
    {t : Tape κ R} {u : Tape κ (DualNumber R)} {op : Op κ} {as : List ℕ}
    (hpoly : op.Polynomial)
    (hover : op.Over as)
    (stored r : R) (v τ : ℕ → R) :
    u.result op (inl stored) (as.map fun j => dual (v j) (τ j)) =
      dual (t.result op stored (as.map v))
        (List.zipWith (· * ·) (t.partials op (as.map v) r) (as.map τ)).sum := by
  cases hover with
  | const => exact (add_zero (inl stored : DualNumber R)).symm
  | sum as =>
      have hzero : (0 : DualNumber R) = dual 0 0 := (add_zero _).symm
      have hones : List.zipWith (· * ·) ((as.map v).map fun _ => (1 : R)) (as.map τ) =
          as.map τ := by
        rw [List.map_map, List.zipWith_map]
        simp
      calc
        (as.map fun j => dual (v j) (τ j)).foldl (· + ·) 0 =
            dual ((as.map v).foldl (· + ·) 0) (0 + (as.map τ).sum) := by
          rw [hzero, foldl_dual]
        _ = dual ((as.map v).foldl (· + ·) 0)
            (List.zipWith (· * ·) ((as.map v).map fun _ => (1 : R)) (as.map τ)).sum := by
          rw [hones, zero_add]
  | product a b =>
      calc
        dual (v a) (τ a) * dual (v b) (τ b) = dual (v a * v b) (v b * τ a + v a * τ b) :=
          mul_dual _ _ _ _
        _ = dual (v a * v b) (List.sum [v b * τ a, v a * τ b]) := by
          simp
  | constPower k a =>
      show Scalar.constPower (dual (v a) (τ a)) k =
        dual (Scalar.constPower (v a) k) (List.sum [Scalar.constPowerPartial (v a) k * τ a])
      rw [List.sum_singleton, Scalar.constPower, Scalar.constPower, Scalar.constPowerPartial]
      by_cases hone : Exponent.isOne k = true
      · rw [if_pos hone, if_pos hone, if_pos hone, one_mul]
      · obtain ⟨d, hk, hpred⟩ := hpoly.resolve_left hone
        rw [if_neg hone, if_neg hone, if_neg hone, PowerRing.powConst_eq _ hk,
          PowerRing.powConst_eq _ hk, PowerRing.powConst_eq _ hpred, PowerRing.ofExponent_eq hk,
          pow_dual]
  | input | termPower | exp | ln | unary | binary | nary => exact hpoly.elim

end Polynomials

namespace Tape

variable {κ R : Type} [Degrees κ] [PowerRing κ R] {t : Tape κ R}

section Lifting

/-- The same tape over dual numbers, where constants have no tangent.  It has no functions. -/
def overDual (t : Tape κ R) : Tape κ (DualNumber R) where
  slots := t.slots.map fun s =>
    { op := s.op, value := inl s.value, adjoint := inl s.adjoint, inputs := s.inputs }
  edges := t.edges.map fun e => { source := e.source, weight := inl e.weight }
  dimension := t.dimension

theorem size_overDual (t : Tape κ R) : t.overDual.size = t.size := by
  simp [overDual, size]

theorem sourcesIn_overDual (t : Tape κ R) (w : Window) :
    t.overDual.sourcesIn w = t.sourcesIn w := by
  simp [overDual, sourcesIn, edgeList, Function.comp_def]

/-- A slot of the tape over dual numbers has the operation and the window of a slot of the tape,
and the constant if it is one. -/
theorem slot_of_overDual
    {i : ℕ} {s : Slot κ (DualNumber R)}
    (hs : t.overDual.slots[i]? = some s) :
    ∃ r, t.slots[i]? = some r ∧ s.op = r.op ∧ s.inputs = r.inputs ∧
      s.fresh.value = inl r.fresh.value := by
  rw [overDual, Array.getElem?_map] at hs
  obtain ⟨r, hr, rfl⟩ := Option.map_eq_some_iff.1 hs
  refine ⟨r, hr, rfl, rfl, ?_⟩
  rw [Slot.fresh, Slot.fresh]
  split <;> rfl

theorem Sound.overDual
    (ht : t.Sound) :
    t.overDual.Sound := by
  constructor
  · rw [size_overDual]
    exact ht.dimension_le
  · intro p e he
    rw [Tape.overDual, Array.getElem?_map] at he
    obtain ⟨e', he', rfl⟩ := Option.map_eq_some_iff.1 he
    rw [size_overDual]
    exact ht.edge_lt he'
  · intro i s hs
    obtain ⟨r, hr, hop, hinputs, -⟩ := slot_of_overDual hs
    have hslot := ht.slot hr
    constructor
    · rw [hop]
      exact hslot.input_iff
    · rw [hinputs, Tape.overDual, Array.size_map]
      exact hslot.window
    · rw [sourcesIn_overDual, hinputs]
      exact hslot.earlier
    · rw [sourcesIn_overDual, hinputs, hop]
      exact hslot.arity

/-- The point `p + ε * e k`. -/
def dualPoint (point : List R) (k : ℕ) : List (DualNumber R) :=
  point.mapIdx fun i x => inl x + if i = k then DualNumber.eps else 0

theorem getElem?_dualPoint (point : List R) (k i : ℕ) :
    (dualPoint point k)[i]? = point[i]?.map fun x => dual x (if i = k then 1 else 0) := by
  rw [dualPoint, List.getElem?_mapIdx]
  congr 1
  funext x
  rw [dual_eq]
  split <;> simp

end Lifting
end Tape

namespace Graph

open Tape

variable {κ R : Type} [Degrees κ] [PowerRing κ R] {g : Graph κ R} {root : g.Term}
  {vs : List g.Variable} {tape : Tape κ R} {done : List g.Term} {point : List R} {v : ℕ → R}

section Represented

/-- The slots of the tape of a polynomial that are not variables have operations of polynomials. -/
theorem Represents.input_or_polynomial
    (h : Represents root vs tape done)
    (hpoly : g.Polynomial root)
    (hexact : g.ExactExponents root)
    (hbelow : ∀ t ∈ done, g.Reaches root t)
    {i : ℕ} {s : Slot κ R}
    (hs : tape.slots[i]? = some s) :
    s.op = .input ∨ s.op.Polynomial := by
  rcases h.op_cases hs with hop | ⟨t, ht, hstands, -⟩ | hop
  · exact .inl hop
  · exact .inr (hstands.polynomial (hpoly t (hbelow t ht)) fun a k =>
      hexact t a k (hbelow t ht))
  · rw [hop]
    exact .inr (.inl Exponent.isOne_one)

theorem Represents.handlesRegistered_overDual
    (h : Represents root vs tape done)
    (hpoly : g.Polynomial root)
    (hexact : g.ExactExponents root)
    (hbelow : ∀ t ∈ done, g.Reaches root t) :
    tape.overDual.HandlesRegistered := by
  intro s hs
  obtain ⟨i, hi⟩ := Array.mem_iff_getElem?.1 hs
  obtain ⟨r, hr, hop, -, -⟩ := slot_of_overDual hi
  rw [hop]
  rcases h.input_or_polynomial hpoly hexact hbelow hr with hinput | hpolynomial
  · rw [hinput]
    trivial
  · exact hpolynomial.registeredIn _

/-- The values of the slots with their tangents along a variable are values of the tape over dual
numbers, at the point with a tangent of 1 in that variable. -/
theorem Represents.valuation_overDual
    (h : Represents root vs tape done)
    (hpoly : g.Polynomial root)
    (hexact : g.ExactExponents root)
    (hbelow : ∀ t ∈ done, g.Reaches root t)
    (hnodup : vs.Nodup)
    (hv : tape.Valuation point v)
    {k : ℕ} {y : g.Variable}
    (hk : vs[k]? = some y) :
    tape.overDual.Valuation (dualPoint point k) fun i =>
      dual (v i) (g.slotTangent (g.assign vs point) y root (slotTerms vs done) i) := by
  have hklt := (List.getElem?_eq_some_iff.1 hk).1
  have hdim := h.layout.dimension
  have hle := h.sound.dimension_le
  have htangent := fun {i : ℕ} (hi : i < tape.size) =>
    h.slotTangent_eq PowerRing.commutativeRing hnodup hv hk hi
  constructor
  · intro i hi
    have hi : i < tape.dimension := hi
    rw [getElem?_dualPoint, hv.loaded i hi, Option.map_some, htangent (by omega),
      linksAt_eq_nil h.sound hi]
    simp
  · intro i s hs hi
    have hi : tape.dimension ≤ i := hi
    obtain ⟨r, hr, hop, hinputs, hstored⟩ := slot_of_overDual hs
    have hlt := lt_size_of_slot hr
    have hpolynomial : r.op.Polynomial := by
      refine (h.input_or_polynomial hpoly hexact hbelow hr).resolve_left fun hinput => ?_
      have := (h.sound.slot hr).input_iff.1 (by rw [hinput]; rfl)
      omega
    rw [hop, hstored, sourcesIn_overDual, hinputs, result_overDual (t := tape)
      hpolynomial (h.sound.slot hr).applied _ (v i),
      ← hv.computed hr hi, htangent hlt, linksAt_of_slot hr, map_zip_eq_zipWith,
      if_neg (by omega), zero_add]
    rfl

end Represented
end Graph

namespace Tape

open ReverseMode.Graph

section Results

variable {κ R : Type} [Degrees κ] [PowerRing κ R]

/-- Over any commutative ring, the tape of a polynomial is differentiated at each point, and at the
dual numbers `p + ε * e k` it has the value at `p` plus `ε` times the `k`-th component of the
gradient. -/
theorem evaluate_overDual
    {g : Graph κ R} {root : g.Term} {vs : List g.Variable}
    (hl : g.Lowerable root vs)
    (hpoly : g.Polynomial root)
    (hexact : g.ExactExponents root) :
    ∃ l, ofTerm g root vs = .ok l ∧ ∀ point : List R, point.length = vs.length →
      ∃ x gradient, gradient.length = vs.length ∧
        (l.tape.differentiate point vs.length).1 = .ok (x, gradient) ∧
        ∀ k (hk : k < gradient.length), (l.tape.overDual.evaluate (dualPoint point k)).1 =
          .ok (inl x + gradient[k] • DualNumber.eps) := by
  obtain ⟨l, hofTerm, h, -⟩ := ofTerm_walk hl
  refine ⟨l, hofTerm, ?_⟩
  intro point hp
  have hdim := h.layout.dimension
  have hbelow : ∀ t ∈ g.computedWalk root, g.Reaches root t :=
    fun t ht => (mem_computedWalk.1 ht).1
  obtain ⟨u, hu, -, hval, hadj, -⟩ := differentiate_spec h.sound h.handlesRegistered h.tiled
    h.size_pos (hp.trans hdim.symm)
  rw [hdim] at hu
  refine ⟨u.value (l.tape.size - 1), (List.range vs.length).map u.adjoint, by simp, by rw [hu],
    fun k hk => ?_⟩
  have hklt : k < vs.length := by simpa using hk
  have hkth := List.getElem?_eq_getElem hklt
  -- The values with their tangents are the one solution over dual numbers.
  have hlifted := h.valuation_overDual hpoly hexact hbelow hl.nodup hval hkth
  have hlength : (dualPoint point k).length = l.tape.overDual.dimension := by
    simp [dualPoint, overDual, hp, hdim]
  have hpos : 0 < l.tape.overDual.size := by
    rw [size_overDual]
    exact h.size_pos
  obtain ⟨w, hw, -, hwval⟩ := evaluate_spec h.sound.overDual
    (h.handlesRegistered_overDual hpoly hexact hbelow) hpos hlength
  have hout := h.size_pos
  rw [hw, size_overDual, hwval.unique h.sound.overDual hlifted (by rw [size_overDual]; omega),
    h.slotTangent_output, dual_eq, List.getElem_map, List.getElem_range,
    h.adjoint_eq_tangent PowerRing.commutativeRing hl.nodup hval hadj hkth]

/-- The term `x ^ 3 + 5 * x`. -/
def cubic : Graph Float ℚ where
  nodes := #[.var none, .constPower 0 3.0, .const 5, .product 2 0, .sum [1, 3]]
  node_ok := by decide

def cubic.x : cubic.Variable := ⟨⟨0, by decide⟩, by cbv⟩

def cubic.root : cubic.Term := ⟨4, by decide⟩

theorem lowerable_cubic : cubic.Lowerable cubic.root [cubic.x] := by
  apply lowerable_of_graph_fits
  · decide
  · rintro ⟨t, ht⟩
    have hvars : ∀ t : cubic.Term, cubic.isVariable t = true → t = cubic.x.1 := by decide
    rw [List.mem_singleton]
    exact Subtype.ext (hvars t ht)
  · decide
  · decide

theorem degree_three : Degrees.degree? (3.0 : Float) = some 3 := by
  decide +kernel

theorem degree_pred_three : Degrees.degree? (Exponent.pred (3.0 : Float)) = some 2 := by
  decide +kernel

theorem polynomial_cubic : cubic.Polynomial cubic.root := by
  rintro ⟨_ | _ | _ | _ | _ | t, ht⟩ -
  · trivial
  · exact ⟨2, degree_three⟩
  · trivial
  · trivial
  · trivial
  · exact absurd ht (by simp [cubic, Graph.size])

theorem exactExponents_cubic : cubic.ExactExponents cubic.root := by
  rintro ⟨_ | _ | _ | _ | _ | t, ht⟩ a k - hk
  · cases hk
  · cases hk
    intro n hn
    obtain rfl : 2 = n := Nat.succ.inj (Option.some.inj (degree_three.symm.trans hn))
    exact degree_pred_three
  · cases hk
  · cases hk
  · cases hk
  · exact absurd ht (by simp [cubic, Graph.size])

/-- At 2 it has the value 18 and the derivative 17, and at `2 + ε` the value `18 + 17 * ε`. -/
theorem evaluate_overDual_cubic :
    cubic.Lowerable cubic.root [cubic.x] ∧ cubic.Polynomial cubic.root ∧
      cubic.ExactExponents cubic.root ∧
      ∃ l, ofTerm cubic cubic.root [cubic.x] = .ok l ∧
        (l.tape.differentiate [2] 1).1 = .ok (18, [17]) ∧
        (l.tape.overDual.evaluate [inl 2 + DualNumber.eps]).1 =
          .ok (inl 18 + (17 : ℚ) • DualNumber.eps) := by
  obtain ⟨l, hofTerm, hl⟩ :=
    evaluate_overDual lowerable_cubic polynomial_cubic exactExponents_cubic
  obtain ⟨x, gradient, -, hresult, hdual⟩ := hl [2] rfl
  have hcomputed : (ofTerm cubic cubic.root [cubic.x]).toOption.bind (fun l =>
      (l.tape.differentiate [2] 1).1.toOption) = some (18, [17]) := by
    decide +kernel
  have hresult : (l.tape.differentiate [2] 1).1 = .ok (x, gradient) := hresult
  rw [hofTerm] at hcomputed
  have hcomputed : (l.tape.differentiate [2] 1).1.toOption = some (18, [17]) := hcomputed
  rw [hresult] at hcomputed
  obtain ⟨rfl, rfl⟩ := Prod.mk.inj (Option.some.inj hcomputed)
  exact ⟨lowerable_cubic, polynomial_cubic, exactExponents_cubic, l, hofTerm, hresult,
    hdual 0 (by decide)⟩

/-- The power of a variable. -/
def power (k : κ) (hk : Exponent.valid k = true) : Graph κ R where
  nodes := #[.var none, .constPower 0 k]
  node_ok := by
    intro i hi
    match i with
    | 0 => exact ⟨rfl, nofun⟩
    | 1 => exact ⟨if_pos hk, by simp [Node.operands]⟩

section Powers

variable {k : κ} (hk : Exponent.valid k = true)

def power.x : (power k hk : Graph κ R).Variable := ⟨⟨0, Nat.zero_lt_two⟩, rfl⟩

def power.root : (power k hk : Graph κ R).Term := ⟨1, Nat.one_lt_two⟩

def powerTape (k : κ) : Tape κ R where
  slots := #[
    { op := .input, value := 0, adjoint := 0, inputs := .ofNat 0 0 },
    { op := .constPower k, value := 0, adjoint := 0, inputs := .ofNat 0 1 }]
  edges := #[{ source := 0, weight := 0 }]
  dimension := 1

theorem ofTerm_power :
    ofTerm (power k hk : Graph κ R) (power.root hk) [power.x hk] = .ok ⟨powerTape k, 1⟩ := by
  cbv

theorem differentiate_powerTape (k : κ) (x : R) :
    ((powerTape k).differentiate [x] 1).1 =
      .ok (Scalar.constPower x k, [0 + 1 * Scalar.constPowerPartial x k]) := by
  cbv

theorem evaluate_overDual_powerTape (k : κ) (x : DualNumber R) :
    ((powerTape k).overDual.evaluate [x]).1 = .ok (Scalar.constPower x k) := by
  cbv

end Powers

/-- The exponent 2 ^ 53 + 2, from which 1 is taken with rounding. -/
def roundedExponent : Float :=
  9007199254740994.0

theorem degree_roundedExponent :
    Degrees.degree? roundedExponent = some (9007199254740993 + 1) := by
  decide +kernel

theorem degree_pred_roundedExponent :
    Degrees.degree? (Exponent.pred roundedExponent) = some 9007199254740992 := by
  decide +kernel

/-- The term `x ^ (2 ^ 53 + 2)`. -/
def steep : Graph Float ℚ :=
  power roundedExponent (by decide +kernel)

def steep.x : steep.Variable :=
  power.x _

def steep.root : steep.Term :=
  power.root _

theorem covers_steep : Covers [steep.x] steep.root := by
  refine ⟨List.nodup_singleton _, ?_⟩
  rintro ⟨⟨_ | _ | t, ht⟩, hvar⟩ -
  · exact List.mem_singleton.2 rfl
  · cases hvar
  · exact absurd ht (by simp [steep, power, Graph.size])

theorem polynomial_steep : steep.Polynomial steep.root := by
  rintro ⟨_ | _ | t, ht⟩ -
  · trivial
  · exact ⟨_, degree_roundedExponent⟩
  · exact absurd ht (by simp [steep, power, Graph.size])

theorem polynomial_multiples (n : ℕ) : (multiples n).Polynomial (multiples.root n) := by
  intro t ht
  rcases multiples_cases t with rfl | ⟨k, hk, rfl⟩ | hlast
  · rw [node_xTerm]
    trivial
  · cases k with
    | zero => rw [node_product]; trivial
    | succ k => rw [node_sum]; trivial
  · have hle : t.val ≤ n + 1 := ht.le
    omega

/-- Where 1 is taken from an exponent with rounding, the derivative need not be that of the power:
at -1 it has the wrong sign.  Nor does a polynomial have a tape with more slots than there are
indices. -/
theorem evaluate_overDual_steep :
    (Covers [steep.x] steep.root ∧ steep.Polynomial steep.root ∧
      ∃ l, ofTerm steep steep.root [steep.x] = .ok l ∧
        (l.tape.differentiate [-1] 1).1 = .ok (1, [9007199254740994]) ∧
        (l.tape.overDual.evaluate [inl (-1) + DualNumber.eps]).1 =
          .ok (inl 1 + (-9007199254740994 : ℚ) • DualNumber.eps)) ∧
    Covers [multiples.x 4294967294] (multiples.root 4294967294) ∧
      (multiples 4294967294).Polynomial (multiples.root 4294967294) ∧
      ofTerm (multiples 4294967294) (multiples.root 4294967294) [multiples.x 4294967294] =
        .error (.fault .tapeTooLong) := by
  have hone : Exponent.isOne roundedExponent ≠ true := by decide +kernel
  have hvalue : (-1 : ℚ) ^ (9007199254740993 + 1) = 1 :=
    Even.neg_one_pow (Nat.even_iff.2 rfl)
  have hrounded : (-1 : ℚ) ^ 9007199254740992 = 1 :=
    Even.neg_one_pow (Nat.even_iff.2 rfl)
  have hexact : (-1 : ℚ) ^ 9007199254740993 = -1 :=
    Odd.neg_one_pow (Nat.odd_iff.2 rfl)
  have hpoint : inl (-1 : ℚ) + DualNumber.eps = dual (-1) 1 := by
    rw [dual_eq, one_smul]
  refine ⟨⟨covers_steep, polynomial_steep, _, ofTerm_power _, ?_, ?_⟩,
    covers_multiples (List.nodup_singleton _) (List.mem_singleton.2 rfl),
    polynomial_multiples _, ofTerm_multiples_eq_tapeTooLong (List.nodup_singleton _)
      (List.mem_singleton.2 rfl) (by decide)⟩
  · rw [differentiate_powerTape, Scalar.constPower, Scalar.constPowerPartial, if_neg hone,
      if_neg hone, PowerRing.powConst_eq _ degree_roundedExponent,
      PowerRing.powConst_eq _ degree_pred_roundedExponent,
      PowerRing.ofExponent_eq degree_roundedExponent, hvalue, hrounded]
    norm_num
  · rw [hpoint, evaluate_overDual_powerTape, Scalar.constPower, if_neg hone,
      PowerRing.powConst_eq _ degree_roundedExponent, pow_dual, dual_eq, hvalue, hexact]
    norm_num

end Results
end Tape
end ReverseMode
