import Mathlib
import ReverseMode.Text.Decimal
import ReverseMode.Proofs.Binary64

/-!
# The shortest decimal of a magnitude

**Input.**  A positive binary64 number, as a mantissa, an exponent, and whether the next smaller
number is nearer than the next greater one.

**Argument.**  The search compares the points of a decimal grid next to the number with the ends
of its rounding interval, so a decimal that it finds rounds to the number.  Seventeen digits
always find one: the grid is then finer than the interval is long.  The rounding intervals of two
numbers do not meet, since where they have an end in common the mantissa of one is odd.

**Results.**
* `Rounds.unique`: no rational rounds to two magnitudes.
* `gridPoint_of_lt`: a grid finer than the interval is long has a point in it.
* `rounds_shortest`: the shortest decimal of a magnitude rounds to it.
-/

namespace ReverseMode
namespace Text

section Decimals

/-- The rational `0.d₁d₂d₃… · 10 ^ k`. -/
def decimalValue (digits : List Char) (k : Int) : ℚ :=
  Nat.ofDigitChars 10 digits 0 * 10 ^ (k - digits.length)

theorem ofDigitChars_append_zeros (ds : List Char) (n : Nat) :
    Nat.ofDigitChars 10 (ds ++ List.replicate n '0') 0 = 10 ^ n * Nat.ofDigitChars 10 ds 0 := by
  rw [Nat.ofDigitChars_append, Nat.ofDigitChars_replicate_zero]

/-- Zeros after digits move with the point. -/
theorem decimalValue_append_zeros (ds : List Char) (n : Nat) (k : Int) :
    decimalValue (ds ++ List.replicate n '0') k = decimalValue ds k := by
  have hexponent : (n : ℤ) + (k - ((ds.length + n : Nat) : ℤ)) = k - ds.length := by
    push_cast
    ring
  rw [decimalValue, decimalValue, ofDigitChars_append_zeros, List.length_append,
    List.length_replicate, ← hexponent, zpow_add₀ (by norm_num), zpow_natCast]
  push_cast
  ring

end Decimals

section Intervals

variable {v w : Magnitude} {r : ℚ}

namespace Magnitude

/-- The least end of the rounding interval. -/
def low (v : Magnitude) : ℚ :=
  (4 * v.mantissa - (if v.narrowBelow then 1 else 2)) * 2 ^ (v.exponent - 2)

/-- The greatest end of the rounding interval. -/
def high (v : Magnitude) : ℚ :=
  (4 * v.mantissa + 2) * 2 ^ (v.exponent - 2)

/-- A rational lies in the rounding interval, whose ends belong to it if the mantissa is even. -/
def Rounds (v : Magnitude) (r : ℚ) : Prop :=
  if v.mantissa % 2 = 0 then v.low ≤ r ∧ r ≤ v.high else v.low < r ∧ r < v.high

/-- The magnitudes of binary64. -/
structure Canonical (v : Magnitude) : Prop where
  stored : Binary64.Canonical v.mantissa v.exponent
  narrow : v.narrowBelow = true ↔ v.mantissa = 2 ^ 52 ∧ -1074 < v.exponent

theorem Rounds.le (h : v.Rounds r) : v.low ≤ r ∧ r ≤ v.high := by
  rw [Rounds] at h
  split at h
  · exact h
  · exact ⟨h.1.le, h.2.le⟩

theorem Rounds.lt_of_odd (h : v.Rounds r) (hodd : v.mantissa % 2 = 1) :
    v.low < r ∧ r < v.high := by
  rw [Rounds, if_neg (by omega)] at h
  exact h

/-- Whatever rounds to a magnitude is positive. -/
theorem Rounds.pos (hv : v.Canonical) (h : v.Rounds r) : 0 < r := by
  have hm : (1 : ℚ) ≤ v.mantissa := by exact_mod_cast hv.stored.pos
  have hlow : 0 < v.low := by
    rw [low]
    apply mul_pos _ (by positivity)
    split <;> linarith
  exact hlow.trans_le h.le.1

/-- Magnitudes in the order of their exponents, then of their mantissas. -/
def Before (v w : Magnitude) : Prop :=
  v.exponent < w.exponent ∨ v.exponent = w.exponent ∧ v.mantissa < w.mantissa

/-- On one exponent the next interval starts where this one ends. -/
theorem high_le_low_of_exponent_eq
    (hexponent : v.exponent = w.exponent)
    (hmantissa : v.mantissa < w.mantissa) :
    v.high < w.low ∨ v.high = w.low ∧ (v.mantissa % 2 = 1 ∨ w.mantissa % 2 = 1) := by
  have hunit : (0 : ℚ) < 2 ^ (w.exponent - 2) := by positivity
  have hle : (v.mantissa : ℚ) + 1 ≤ w.mantissa := by exact_mod_cast hmantissa
  rw [high, low, hexponent]
  split
  · left
    apply mul_lt_mul_of_pos_right _ hunit
    linarith
  · rcases Nat.eq_or_lt_of_le hmantissa with hnext | hfar
    · right
      refine ⟨?_, by omega⟩
      rw [← hnext]
      push_cast
      ring
    · left
      have hle : (v.mantissa : ℚ) + 1 + 1 ≤ w.mantissa := by exact_mod_cast hfar
      apply mul_lt_mul_of_pos_right _ hunit
      linarith

/-- A greater exponent has a mantissa of 53 bits, and the least of these has a narrow interval
below. -/
theorem high_le_low_of_exponent_lt
    (hv : v.Canonical)
    (hw : w.Canonical)
    (hexponent : v.exponent < w.exponent) :
    v.high < w.low ∨ v.high = w.low ∧ (v.mantissa % 2 = 1 ∨ w.mantissa % 2 = 1) := by
  have hleast := hv.stored.least
  have hbound := hv.stored.lt
  have hfull : 2 ^ 52 ≤ w.mantissa := hw.stored.full.resolve_right (by omega)
  have hunit : (0 : ℚ) < 2 ^ (v.exponent - 2) := by positivity
  have htwice : 2 * (2 : ℚ) ^ (v.exponent - 2) ≤ 2 ^ (w.exponent - 2) := by
    rw [← zpow_one_add₀ (by norm_num)]
    exact zpow_le_zpow_right₀ (by norm_num) (by omega)
  have hhigh : v.high ≤ (2 ^ 55 - 2) * 2 ^ (v.exponent - 2) := by
    have hle : (v.mantissa : ℚ) + 1 ≤ 2 ^ 53 := by exact_mod_cast hbound
    apply mul_le_mul_of_nonneg_right _ hunit.le
    linarith
  rcases Nat.eq_or_lt_of_le hfull with hnext | hfar
  · have hlow : w.low = (2 ^ 54 - 1) * 2 ^ (w.exponent - 2) := by
      rw [low, if_pos (hw.narrow.2 ⟨hnext.symm, by omega⟩), ← hnext]
      norm_num
    have hle : (2 ^ 55 - 2) * (2 : ℚ) ^ (v.exponent - 2) ≤ w.low := by
      rw [hlow]
      linarith
    rcases (hhigh.trans hle).lt_or_eq with hlt | heq
    · exact .inl hlt
    · right
      refine ⟨heq, .inl ?_⟩
      have hends : v.high = (2 ^ 55 - 2) * 2 ^ (v.exponent - 2) := le_antisymm hhigh (heq ▸ hle)
      have hmantissa : 4 * (v.mantissa : ℚ) + 2 = 2 ^ 55 - 2 :=
        mul_right_cancel₀ hunit.ne' hends
      have hlast : (v.mantissa : ℚ) = (2 ^ 53 - 1 : Nat) := by
        push_cast
        linarith
      rw [Nat.cast_injective hlast]
      norm_num
  · left
    have hle : (2 ^ 54 + 2) * (2 : ℚ) ^ (w.exponent - 2) ≤ w.low := by
      have hle : (2 : ℚ) ^ 52 + 1 ≤ w.mantissa := by exact_mod_cast hfar
      apply mul_le_mul_of_nonneg_right _ (by positivity)
      split <;> linarith
    linarith

/-- The interval of the smaller magnitude ends before that of the greater one starts, or where it
starts; and then the end belongs to one of them only. -/
theorem high_le_low
    (hv : v.Canonical)
    (hw : w.Canonical)
    (h : v.Before w) :
    v.high < w.low ∨ v.high = w.low ∧ (v.mantissa % 2 = 1 ∨ w.mantissa % 2 = 1) := by
  rcases h with hlt | ⟨heq, hlt⟩
  · exact high_le_low_of_exponent_lt hv hw hlt
  · exact high_le_low_of_exponent_eq heq hlt

theorem Rounds.not_before
    (hv : v.Canonical)
    (hw : w.Canonical)
    (hrv : v.Rounds r)
    (hrw : w.Rounds r) :
    ¬ v.Before w := by
  intro h
  have hle : w.low ≤ v.high := hrw.le.1.trans hrv.le.2
  rcases high_le_low hv hw h with hlt | ⟨heq, hodd | hodd⟩
  · exact absurd hle (not_le.2 hlt)
  · have := (hrv.lt_of_odd hodd).2.trans_le (heq.trans_le hrw.le.1)
    exact lt_irrefl r this
  · have := (hrv.le.2.trans_eq heq).trans_lt (hrw.lt_of_odd hodd).1
    exact lt_irrefl r this

/-- No rational rounds to two magnitudes. -/
theorem Rounds.unique
    (hv : v.Canonical)
    (hw : w.Canonical)
    (hrv : v.Rounds r)
    (hrw : w.Rounds r) :
    v.mantissa = w.mantissa ∧ v.exponent = w.exponent := by
  have hvw := hrv.not_before hv hw hrw
  have hwv := hrw.not_before hw hv hrv
  rw [Before] at hvw hwv
  omega

end Magnitude
end Intervals

section Grid

variable {v : Magnitude}

/-- The common factor of the two scales. -/
def commonScale (i e : Int) : Nat :=
  10 ^ (-i).toNat * 2 ^ (-e).toNat

theorem commonScale_pos (i e : Int) : (0 : ℚ) < commonScale i e := by
  exact_mod_cast Nat.mul_pos (Nat.pow_pos (by decide)) (Nat.two_pow_pos _)

theorem zpow_mul_pow_toNat_neg {a : ℚ} (ha : a ≠ 0) (n : Int) :
    a ^ n * a ^ (-n).toNat = a ^ n.toNat := by
  rw [← zpow_natCast, ← zpow_natCast, ← zpow_add₀ ha]
  congr 1
  omega

theorem scales_fst (i e : Int) : ((scales i e).1 : ℚ) = 10 ^ i * commonScale i e := by
  simp only [scales, commonScale, Nat.pow_eq, Nat.shiftLeft_eq]
  push_cast
  rw [← mul_assoc, zpow_mul_pow_toNat_neg (by norm_num)]

theorem scales_snd (i e : Int) : ((scales i e).2 : ℚ) = 2 ^ e * commonScale i e := by
  simp only [scales, commonScale, Nat.pow_eq, Nat.shiftLeft_eq]
  push_cast
  rw [mul_left_comm, zpow_mul_pow_toNat_neg (by norm_num)]

/-- The two scales compare the grid `10 ^ i` with the multiples of `2 ^ e`. -/
theorem scales_le_iff (i e : Int) (n d : Nat) :
    n * (scales i e).2 ≤ d * (scales i e).1 ↔ (n : ℚ) * 2 ^ e ≤ d * 10 ^ i := by
  rw [← Nat.cast_le (α := ℚ)]
  push_cast
  rw [scales_fst, scales_snd, ← mul_assoc, ← mul_assoc,
    mul_le_mul_iff_left₀ (commonScale_pos i e)]

theorem scales_ge_iff (i e : Int) (n d : Nat) :
    d * (scales i e).1 ≤ n * (scales i e).2 ↔ (d : ℚ) * 10 ^ i ≤ n * 2 ^ e := by
  rw [← Nat.cast_le (α := ℚ)]
  push_cast
  rw [scales_fst, scales_snd, ← mul_assoc, ← mul_assoc,
    mul_le_mul_iff_left₀ (commonScale_pos i e)]

/-- The point below the number and the one above it. -/
theorem mul_scales_div (n : Nat) (i e : Int) :
    ((n * (scales i e).2 / (scales i e).1 : Nat) : ℚ) * 10 ^ i ≤ n * 2 ^ e ∧
      (n : ℚ) * 2 ^ e < ((n * (scales i e).2 / (scales i e).1 + 1 : Nat) : ℚ) * 10 ^ i := by
  have hpos : 0 < (scales i e).1 := by
    rw [← Nat.cast_pos (α := ℚ), scales_fst]
    exact mul_pos (by positivity) (commonScale_pos i e)
  constructor
  · rw [← scales_ge_iff]
    exact Nat.div_mul_le_self _ _
  · rw [← not_le, ← scales_ge_iff, not_le, Nat.mul_comm (_ + 1)]
    exact Nat.lt_mul_div_succ _ hpos

/-- What the search on one grid tests of a point. -/
def inside (v : Magnitude) (i : Int) (d : Nat) : Bool :=
  let (p, b) := scales i (v.exponent - 2)
  let low := (4 * v.mantissa - (if v.narrowBelow then 1 else 2)) * b
  let high := (4 * v.mantissa + 2) * b
  if v.mantissa % 2 = 0 then low ≤ d * p && d * p ≤ high else low < d * p && d * p < high

theorem inside_iff (hm : 0 < v.mantissa) (i : Int) (d : Nat) :
    inside v i d = true ↔ v.Rounds (d * 10 ^ i) := by
  have hcast : ((4 * v.mantissa - (if v.narrowBelow then 1 else 2) : Nat) : ℚ) =
      4 * v.mantissa - (if v.narrowBelow then 1 else 2) := by
    rw [Nat.cast_sub (by split <;> omega)]
    split <;> push_cast <;> rfl
  rw [inside, Magnitude.Rounds, Magnitude.low, Magnitude.high]
  dsimp only
  split
  · rw [Bool.and_eq_true, decide_eq_true_iff, decide_eq_true_iff, scales_le_iff, scales_ge_iff,
      hcast]
    push_cast
    rfl
  · rw [Bool.and_eq_true, decide_eq_true_iff, decide_eq_true_iff, ← not_le, ← not_le,
      scales_le_iff, scales_ge_iff, hcast, not_le, not_le]
    push_cast
    rfl

/-- The last point of the grid that does not exceed the number. -/
def pointBelow (v : Magnitude) (i : Int) : Nat :=
  4 * v.mantissa * (scales i (v.exponent - 2)).2 / (scales i (v.exponent - 2)).1

/-- The search chooses between the two points next to the number. -/
theorem gridPoint?_eq (v : Magnitude) (i : Int) :
    ∃ nearer : Bool, gridPoint? v i =
      if inside v i (pointBelow v i) && !(inside v i (pointBelow v i + 1) && nearer) then
        some (pointBelow v i)
      else if inside v i (pointBelow v i + 1) then some (pointBelow v i + 1)
      else none :=
  ⟨_, rfl⟩

/-- A point that the search on one grid finds rounds to the number. -/
theorem rounds_of_gridPoint
    (hm : 0 < v.mantissa)
    {i : Int} {d : Nat}
    (h : gridPoint? v i = some d) :
    v.Rounds (d * 10 ^ i) := by
  obtain ⟨nearer, heq⟩ := gridPoint?_eq v i
  rw [heq] at h
  rw [← inside_iff hm]
  split at h
  · rename_i hbelow
    cases h
    exact (Bool.and_eq_true_iff.1 hbelow).1
  · split at h
    · rename_i habove
      cases h
      exact habove
    · cases h

/-- The search finds a point if one of the two rounds to the number. -/
theorem gridPoint_of_rounds
    (hm : 0 < v.mantissa)
    {i : Int}
    (h : v.Rounds (pointBelow v i * 10 ^ i) ∨ v.Rounds ((pointBelow v i + 1 : Nat) * 10 ^ i)) :
    ∃ d, gridPoint? v i = some d := by
  obtain ⟨nearer, heq⟩ := gridPoint?_eq v i
  rw [← inside_iff hm, ← inside_iff hm] at h
  rw [heq]
  split
  · exact ⟨_, rfl⟩
  · rename_i hfirst
    split
    · exact ⟨_, rfl⟩
    · rename_i habove
      rcases h with hbelow | h
      · rw [Bool.not_eq_true] at habove
        rw [hbelow, habove] at hfirst
        exact absurd rfl hfirst
      · exact absurd h habove

/-- A grid that is finer than the interval is long has a point in it. -/
theorem gridPoint_of_lt
    (hm : 0 < v.mantissa)
    {i : Int}
    (h : 10 ^ i < v.high - v.low) :
    ∃ d, gridPoint? v i = some d := by
  apply gridPoint_of_rounds hm
  obtain ⟨hbelow, habove⟩ := mul_scales_div (4 * v.mantissa) i (v.exponent - 2)
  have hvalue : v.low < (4 * v.mantissa : Nat) * 2 ^ (v.exponent - 2) ∧
      (4 * v.mantissa : Nat) * (2 : ℚ) ^ (v.exponent - 2) < v.high := by
    have hunit : (0 : ℚ) < 2 ^ (v.exponent - 2) := by positivity
    rw [Magnitude.low, Magnitude.high]
    push_cast
    constructor
    · apply mul_lt_mul_of_pos_right _ hunit
      split <;> linarith
    · apply mul_lt_mul_of_pos_right _ hunit
      linarith
  have hstep : ((pointBelow v i + 1 : Nat) : ℚ) * 10 ^ i = pointBelow v i * 10 ^ i + 10 ^ i := by
    push_cast
    ring
  change (pointBelow v i : ℚ) * 10 ^ i ≤ _ at hbelow
  change _ < ((pointBelow v i + 1 : Nat) : ℚ) * 10 ^ i at habove
  -- The point below fails only at or under the least end, the one above only at or over the
  -- greatest: then they are further apart than the grid has them.
  by_contra hnone
  rw [not_or] at hnone
  obtain ⟨hnotBelow, hnotAbove⟩ := hnone
  have hlow : (pointBelow v i : ℚ) * 10 ^ i ≤ v.low := by
    by_contra hlt
    apply hnotBelow
    rw [Magnitude.Rounds]
    split
    · exact ⟨(not_le.1 hlt).le, by linarith⟩
    · exact ⟨not_le.1 hlt, by linarith⟩
  have hhigh : v.high ≤ ((pointBelow v i + 1 : Nat) : ℚ) * 10 ^ i := by
    by_contra hlt
    apply hnotAbove
    rw [Magnitude.Rounds]
    split
    · exact ⟨by linarith, (not_le.1 hlt).le⟩
    · exact ⟨by linarith, not_le.1 hlt⟩
  linarith

end Grid

section Search

variable {v : Magnitude}

theorem pow_length_toDigits_le {n : Nat} (hn : 0 < n) :
    10 ^ ((Nat.toDigits 10 n).length - 1) ≤ n := by
  rcases Nat.eq_zero_or_pos ((Nat.toDigits 10 n).length - 1) with hone | hmore
  · rw [hone]
    exact hn
  · by_contra hlt
    have := (Nat.length_toDigits_le_iff (by decide) hmore).2 (not_le.1 hlt)
    omega

theorem lt_pow_length_toDigits (n : Nat) : n < 10 ^ (Nat.toDigits 10 n).length := by
  rw [← Nat.length_toDigits_le_iff (by decide) Nat.length_toDigits_pos]

/-- The point of a quotient is not set too high. -/
theorem zpow_magnitudePoint_le
    {num den : Nat}
    (hnum : 0 < num)
    (hden : 0 < den) :
    (10 : ℚ) ^ (magnitudePoint num den - 1) * den ≤ num := by
  rw [magnitudePoint]
  split
  · rename_i hle
    have hpow := pow_length_toDigits_le (Nat.div_pos hle hden)
    have hexponent : ((Nat.toDigits 10 (num / den)).length : ℤ) - 1 =
        ((Nat.toDigits 10 (num / den)).length - 1 : Nat) := by
      have := Nat.length_toDigits_pos (b := 10) (n := num / den)
      omega
    rw [hexponent, zpow_natCast]
    exact_mod_cast (Nat.mul_le_mul_right den hpow).trans (Nat.div_mul_le_self num den)
  · -- The reciprocal is rounded up, and its digits bound it from above.
    have hup : den ≤ num * ((den + num - 1) / num) := by
      have := Nat.lt_mul_div_succ (den + num - 1) hnum
      rw [Nat.mul_add, Nat.mul_one] at this
      omega
    have hpow := lt_pow_length_toDigits ((den + num - 1) / num - 1)
    generalize (Nat.toDigits 10 ((den + num - 1) / num - 1)).length = n at hpow ⊢
    have hle : den ≤ num * 10 ^ n := hup.trans (Nat.mul_le_mul_left num (by omega))
    have hexponent : (1 : ℤ) - n - 1 = -n := by omega
    have hle : (den : ℚ) ≤ num * 10 ^ n := by exact_mod_cast hle
    rw [hexponent, zpow_neg, zpow_natCast, inv_mul_le_iff₀ (by positivity), mul_comm]
    exact hle

/-- The point at which the search starts is not set too high. -/
theorem zpow_point_le
    (hm : 0 < v.mantissa) :
    (10 : ℚ) ^ (magnitudePoint (v.mantissa <<< v.exponent.toNat) (1 <<< (-v.exponent).toNat) - 1) ≤
      v.mantissa * 2 ^ v.exponent := by
  have hnum : 0 < v.mantissa <<< v.exponent.toNat := by
    rw [Nat.shiftLeft_eq]
    exact Nat.mul_pos hm (Nat.two_pow_pos _)
  have hden : 0 < 1 <<< (-v.exponent).toNat := by
    rw [Nat.one_shiftLeft]
    exact Nat.two_pow_pos _
  have hvalue : ((v.mantissa <<< v.exponent.toNat : Nat) : ℚ) =
      v.mantissa * 2 ^ v.exponent * (1 <<< (-v.exponent).toNat : Nat) := by
    rw [Nat.shiftLeft_eq, Nat.one_shiftLeft]
    push_cast
    rw [mul_assoc, zpow_mul_pow_toNat_neg (by norm_num)]
  have hden' : (0 : ℚ) < (1 <<< (-v.exponent).toNat : Nat) := by exact_mod_cast hden
  have hle := zpow_magnitudePoint_le hnum hden
  rw [hvalue] at hle
  exact le_of_mul_le_mul_right hle hden'

/-- The length of the rounding interval. -/
theorem high_sub_low (v : Magnitude) :
    v.high - v.low = (if v.narrowBelow then 3 else 4) * 2 ^ (v.exponent - 2) := by
  rw [Magnitude.high, Magnitude.low]
  split <;> ring

/-- A grid of seventeen digits is finer than the rounding interval is long. -/
theorem zpow_lt_high_sub_low
    (hv : v.Canonical)
    {i : Int}
    (h : (10 : ℚ) ^ (i + 16) ≤ v.mantissa * 2 ^ v.exponent) :
    10 ^ i < v.high - v.low := by
  have hunit : (0 : ℚ) < 2 ^ (v.exponent - 2) := by positivity
  have hquarter : (2 : ℚ) ^ v.exponent = 4 * 2 ^ (v.exponent - 2) := by
    rw [show (4 : ℚ) = 2 ^ (2 : ℤ) by norm_num, ← zpow_add₀ (by norm_num)]
    congr 1
    omega
  rw [zpow_add₀ (by norm_num), hquarter] at h
  have hten : (10 : ℚ) ^ (16 : ℤ) = 10 ^ 16 := by norm_cast
  rw [hten] at h
  rw [high_sub_low]
  have hbound := hv.stored.lt
  by_cases hnarrow : v.narrowBelow = true
  · have hm : (v.mantissa : ℚ) = 2 ^ 52 := by exact_mod_cast (hv.narrow.1 hnarrow).1
    rw [if_pos hnarrow]
    rw [hm] at h
    norm_num at h ⊢
    linarith
  · have hm : (v.mantissa : ℚ) ≤ 2 ^ 53 := by exact_mod_cast hbound.le
    have hle : (v.mantissa : ℚ) * (4 * 2 ^ (v.exponent - 2)) ≤
        2 ^ 53 * (4 * 2 ^ (v.exponent - 2)) :=
      mul_le_mul_of_nonneg_right hm (by positivity)
    rw [if_neg hnarrow]
    norm_num at h hle ⊢
    linarith

/-- Dropping the zeros at the end leaves the digits before them. -/
theorem eq_dropZeros_append (ds : List Char) :
    ∃ n, ds = (ds.reverse.dropWhile (· == '0')).reverse ++ List.replicate n '0' := by
  have hzeros : ds.reverse.takeWhile (· == '0') =
      List.replicate (ds.reverse.takeWhile (· == '0')).length '0' := by
    rw [List.eq_replicate_iff]
    refine ⟨rfl, ?_⟩
    intro c hc
    have hc := List.mem_takeWhile_imp hc
    exact beq_iff_eq.1 hc
  refine ⟨(ds.reverse.takeWhile (· == '0')).length, ?_⟩
  calc
    ds = ds.reverse.reverse := ds.reverse_reverse.symm
    _ = (ds.reverse.takeWhile (· == '0') ++ ds.reverse.dropWhile (· == '0')).reverse := by
      rw [List.takeWhile_append_dropWhile]
    _ = _ := by rw [List.reverse_append, hzeros, List.reverse_replicate, List.length_replicate]

/-- The search ends on a decimal that rounds to the number. -/
theorem shortest_eq (hv : v.Canonical) :
    ∃ (d : Nat) (i : Int), v.Rounds (d * 10 ^ i) ∧
      shortest v = (((Nat.toDigits 10 d).reverse.dropWhile (· == '0')).reverse,
        i + (Nat.toDigits 10 d).length) := by
  have hm := hv.stored.pos
  rw [shortest]
  dsimp only
  generalize hk : magnitudePoint (v.mantissa <<< v.exponent.toNat)
    (1 <<< (-v.exponent).toNat) = k
  have hpoint := zpow_point_le hm
  rw [hk] at hpoint
  generalize hfound : (List.range 17).findSome? (fun (n : Nat) =>
    (gridPoint? v (k - 1 - n)).map fun d => (d, k - 1 - (n : ℤ))) = found
  cases found with
  | none =>
      -- The last grid is fine enough.
      exfalso
      obtain ⟨d, hd⟩ := gridPoint_of_lt hm
        (zpow_lt_high_sub_low hv (i := k - 1 - 16) (by rwa [sub_add_cancel]))
      have := List.findSome?_eq_none_iff.1 hfound 16 (by simp)
      rw [Option.map_eq_none_iff] at this
      rw [show ((16 : Nat) : ℤ) = 16 from rfl, hd] at this
      cases this
  | some p =>
      obtain ⟨n, -, hn⟩ := List.exists_of_findSome?_eq_some hfound
      obtain ⟨d, hd, rfl⟩ := Option.map_eq_some_iff.1 hn
      exact ⟨d, k - 1 - n, rounds_of_gridPoint hm hd, rfl⟩

/-- The shortest decimal of a magnitude has digits and rounds to the magnitude. -/
theorem rounds_shortest (hv : v.Canonical) :
    (∀ c ∈ (shortest v).1, c.isDigit = true) ∧
      v.Rounds (decimalValue (shortest v).1 (shortest v).2) := by
  obtain ⟨d, i, hrounds, heq⟩ := shortest_eq hv
  obtain ⟨n, hn⟩ := eq_dropZeros_append (Nat.toDigits 10 d)
  rw [heq]
  constructor
  · intro c hc
    have hmem : c ∈ Nat.toDigits 10 d := by
      rw [hn]
      exact List.mem_append_left _ hc
    exact Nat.isDigit_of_mem_toDigits (by decide) (by decide) hmem
  · rw [← decimalValue_append_zeros _ n, ← hn, decimalValue, Nat.ofDigitChars_ten_toDigits,
      add_sub_cancel_right]
    exact hrounds

end Search

end Text
end ReverseMode
