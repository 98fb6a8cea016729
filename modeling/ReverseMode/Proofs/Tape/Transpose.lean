import Mathlib.Algebra.BigOperators.Group.Finset.Sigma
import Mathlib.Algebra.BigOperators.Ring.Finset
import Mathlib.Algebra.Ring.MinimalAxioms
import ReverseMode.Proofs.Tape.Adjoints

/-!
# Adjoints in a commutative ring

Tangents flow along the links of a tape, from the variables to the output; adjoints flow against
them.  In a commutative ring the one flow is the transpose of the other.

**Input.**
* `Scalar.CommutativeRing`: the laws of a commutative ring for sums, differences and products.
  The other operations stay arbitrary.

**Results.**
* `transpose`: adjoints against sources of tangents make the same sum as seeds against tangents.
* `Tape.Adjoints.eq_output`: the adjoint of a slot is the tangent of the output along it.
-/

namespace ReverseMode

section Laws

variable [Scalar κ α]

/-- The laws of a commutative ring for the operations of scalars. -/
structure Scalar.CommutativeRing {κ : Type} (α : Type) [Scalar κ α] : Prop where
  add_assoc : ∀ a b c : α, a + b + c = a + (b + c)
  add_comm : ∀ a b : α, a + b = b + a
  zero_add : ∀ a : α, 0 + a = a
  sub_add_cancel : ∀ a b : α, a - b + b = a
  mul_assoc : ∀ a b c : α, a * b * c = a * (b * c)
  mul_comm : ∀ a b : α, a * b = b * a
  one_mul : ∀ a : α, 1 * a = a
  mul_add : ∀ a b c : α, a * (b + c) = a * b + a * c

/-- The scalars as a commutative ring, where the negative of `a` is `0 - a`. -/
abbrev Scalar.CommutativeRing.toCommRing
    {κ α : Type} [Scalar κ α]
    (h : Scalar.CommutativeRing α) :
    CommRing α :=
  letI : Neg α := ⟨fun a => 0 - a⟩
  CommRing.ofMinimalAxioms h.add_assoc h.zero_add (fun a => h.sub_add_cancel 0 a) h.mul_assoc
    h.mul_comm h.one_mul h.mul_add

theorem Scalar.CommutativeRing.add_zero
    {κ α : Type} [Scalar κ α]
    (h : Scalar.CommutativeRing α)
    (a : α) :
    a + 0 = a := by
  rw [h.add_comm, h.zero_add]

end Laws

section Transposition

variable {R : Type} [CommRing R] {n : Nat}

/-- The sum of the weights of the links that lead to one slot. -/
def linkWeight (ls : List (Nat × R)) (i : Nat) : R :=
  (ls.map fun l => if l.1 = i then l.2 else 0).sum

/-- A sum over links, collected by the slots that they lead to. -/
theorem sum_links
    {ls : List (Nat × R)}
    (h : ∀ l ∈ ls, l.1 < n)
    (f : Nat → R) :
    (ls.map fun l => l.2 * f l.1).sum = ∑ i ∈ Finset.range n, linkWeight ls i * f i := by
  induction ls with
  | nil => simp [linkWeight]
  | cons l ls ih =>
      have hl : ∑ i ∈ Finset.range n, (if l.1 = i then l.2 else 0) * f i = l.2 * f l.1 := by
        have hmem := Finset.mem_range.2 (h l (by simp))
        simp [Finset.sum_ite_eq, ite_mul, hmem]
      rw [List.map_cons, List.sum_cons, ih fun k hk => h k (List.mem_cons_of_mem l hk), ← hl,
        ← Finset.sum_add_distrib]
      apply Finset.sum_congr rfl
      intro i _
      rw [linkWeight, linkWeight, List.map_cons, List.sum_cons, add_mul]

/-- Adjoints `a` with seeds `seed` against the sources `c` of tangents make the same sum as
seeds against tangents `τ`: both differ from the sum of adjoints against tangents by what flows
along the links. -/
theorem transpose
    {ls : Nat → List (Nat × R)} {a τ c seed : Nat → R}
    (hls : ∀ j < n, ∀ l ∈ ls j, l.1 < n)
    (ha : ∀ i < n, a i = seed i + ∑ j ∈ Finset.range n, a j * linkWeight (ls j) i)
    (hτ : ∀ j < n, τ j = c j + ((ls j).map fun l => l.2 * τ l.1).sum) :
    ∑ i ∈ Finset.range n, a i * c i = ∑ i ∈ Finset.range n, seed i * τ i := by
  have hleft : ∑ i ∈ Finset.range n, a i * τ i =
      ∑ i ∈ Finset.range n, seed i * τ i +
        ∑ j ∈ Finset.range n, a j * ((ls j).map fun l => l.2 * τ l.1).sum := by
    calc
      _ = ∑ i ∈ Finset.range n, (seed i + ∑ j ∈ Finset.range n, a j * linkWeight (ls j) i) * τ i :=
          Finset.sum_congr rfl fun i hi => by rw [← ha i (Finset.mem_range.1 hi)]
      _ = _ := by
          simp only [add_mul, Finset.sum_add_distrib, Finset.sum_mul]
          rw [Finset.sum_comm]
          congr 1
          apply Finset.sum_congr rfl
          intro j hj
          rw [sum_links (hls j (Finset.mem_range.1 hj)), Finset.mul_sum]
          exact Finset.sum_congr rfl fun i _ => mul_assoc _ _ _
  have hright : ∑ i ∈ Finset.range n, a i * τ i =
      ∑ i ∈ Finset.range n, a i * c i +
        ∑ j ∈ Finset.range n, a j * ((ls j).map fun l => l.2 * τ l.1).sum := by
    rw [← Finset.sum_add_distrib]
    apply Finset.sum_congr rfl
    intro i hi
    rw [← mul_add, ← hτ i (Finset.mem_range.1 hi)]
  exact add_right_cancel (hright.symm.trans hleft)

theorem foldl_add_eq (xs : List R) (x : R) :
    xs.foldl (· + ·) x = x + xs.sum := by
  induction xs generalizing x with
  | nil => simp
  | cons y xs ih => rw [List.foldl_cons, ih, List.sum_cons, add_assoc]

theorem sum_flatMap
    {β : Type} (xs : List β) (f : β → List R) :
    (xs.flatMap f).sum = (xs.map fun x => (f x).sum).sum := by
  rw [List.flatMap, List.sum_flatten, List.map_map]
  rfl

end Transposition

namespace Tape

variable {κ α : Type} [Scalar κ α] {t : Tape κ α} {ls : Nat → List (Nat × α)} {a τ : Nat → α}

/-- The equation of an adjoint as a sum over all slots. -/
theorem Adjoints.eq_add_sum
    (hr : Scalar.CommutativeRing α)
    (ha : t.Adjoints ls a)
    (hdim : t.dimension ≤ t.size)
    (hleaf : ∀ j < t.dimension, ls j = [])
    {i : Nat}
    (hi : i < t.size) :
    letI := hr.toCommRing
    a i = t.seedAt i + ∑ j ∈ Finset.range t.size, a j * linkWeight (ls j) i := by
  let ring := hr.toCommRing
  have hpassed : ∀ j, (passed ls a i j).sum = a j * linkWeight (ls j) i := by
    intro j
    rw [passed, linkWeight]
    induction ls j with
    | nil => exact (mul_zero (a j)).symm
    | cons l rest ih =>
        rw [List.filterMap_cons, List.map_cons, List.sum_cons, mul_add, ← ih]
        split <;> simp_all
  have hnodup : t.computed.reverse.Nodup := List.nodup_reverse.2 List.nodup_range'
  rw [ha i hi, foldl_add_eq, sum_flatMap]
  simp only [hpassed]
  rw [← List.sum_toFinset _ hnodup]
  congr 1
  -- Slots that are not computed have no links, so they may as well be summed over.
  apply Finset.sum_subset
  · intro j hj
    rw [List.mem_toFinset, List.mem_reverse, mem_computed] at hj
    rw [Finset.mem_range]
    omega
  · intro j hj hnot
    rw [List.mem_toFinset, List.mem_reverse, mem_computed] at hnot
    rw [Finset.mem_range] at hj
    rw [hleaf j (by omega)]
    exact mul_zero (a j)

/-- Links to earlier slots carry tangents upwards from wherever they arise. -/
theorem exists_tangents
    (hls : ∀ j, ∀ l ∈ ls j, l.1 < j)
    (c : Nat → α) :
    ∃ τ : Nat → α, ∀ j, τ j = c j + ((ls j).map fun l => l.2 * τ l.1).sum := by
  let step : (j : Nat) → ((i : Nat) → i < j → α) → α := fun j earlier =>
    c j + ((ls j).attach.map fun l => l.1.2 * earlier l.1.1 (hls j l.1 l.2)).sum
  refine ⟨Nat.lt_wfRel.wf.fix step, fun j => ?_⟩
  rw [WellFounded.fix_eq]
  exact congrArg (c j + List.sum ·)
    (List.attach_map_val (f := fun l : Nat × α => l.2 * Nat.lt_wfRel.wf.fix step l.1))

/-- The adjoint of a slot is the tangent of the output, where tangents arise at the slot alone. -/
theorem Adjoints.eq_output
    (hr : Scalar.CommutativeRing α)
    (ha : t.Adjoints ls a)
    (hdim : t.dimension ≤ t.size)
    (hls : ∀ j, ∀ l ∈ ls j, l.1 < j)
    (hleaf : ∀ j < t.dimension, ls j = [])
    {k : Nat}
    (hk : k < t.size)
    (hτ : ∀ j < t.size,
      τ j = (if j = k then 1 else 0) + ((ls j).map fun l => l.2 * τ l.1).sum) :
    a k = τ (t.size - 1) := by
  let ring := hr.toCommRing
  have hbelow : ∀ j < t.size, ∀ l ∈ ls j, l.1 < t.size := by
    intro j hj l hl
    exact Nat.lt_trans (hls j l hl) hj
  have hflow := transpose hbelow (fun i hi => ha.eq_add_sum hr hdim hleaf hi) hτ
  have hleft : ∑ i ∈ Finset.range t.size, a i * (if i = k then 1 else 0) = a k := by
    simp [Finset.mem_range.2 hk]
  have hright : ∑ i ∈ Finset.range t.size, t.seedAt i * τ i = τ (t.size - 1) := by
    have hout : t.size - 1 ∈ Finset.range t.size := Finset.mem_range.2 (by omega)
    simp [seedAt, Finset.mem_range.1 hout]
  exact hleft.symm.trans (hflow.trans hright)

end Tape
end ReverseMode
