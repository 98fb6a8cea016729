import Mathlib
import ReverseMode.Scalar

/-!
# Identities of binary64

Which of the identities that programs rely on hold in binary64, bit for bit and for all numbers,
infinities and the undefined value included.

**Argument.**  A stored number is a mantissa and an exponent of the least magnitude that the
format allows, so scaling the mantissa by a power of two and rounding gives the number back.  A
zero is lost in every sum but that of two zeros, where the signs count.

**Results.**
* `mul_one`: a factor 1 changes nothing.
* `zero_add_add_iff`: a leading 0 changes a sum exactly if both operands are `-0`.
-/

namespace ReverseMode
namespace Binary64

open Float.Model Float.Model.UnpackedFloat

section Rounding

variable {m : Nat} {e : Int}

/-- Mantissas and exponents that binary64 stores as they are: of 53 bits, or of fewer at the least
exponent. -/
structure Canonical (m : Nat) (e : Int) : Prop where
  pos : 0 < m
  lt : m < 2 ^ 53
  least : -1074 ≤ e
  full : 2 ^ 52 ≤ m ∨ e = -1074

theorem targetExponent_eq (total : Int) :
    Format.binary64.targetExponent total = max (total - 53) (-1074) := by
  simp only [Format.targetExponent]
  rfl

theorem Canonical.targetExponent
    (h : Canonical m e) :
    Format.binary64.targetExponent (totalExponent m e) = e := by
  have hm : m ≠ 0 := Nat.ne_of_gt h.pos
  have hlt := (Nat.log2_lt hm).2 h.lt
  have hleast := h.least
  rw [targetExponent_eq, totalExponent]
  rcases h.full with hfull | hfull
  · have := (Nat.le_log2 hm).2 hfull
    omega
  · omega

theorem log2_mul_two_pow
    (h : 0 < m)
    (n : Nat) :
    (m * 2 ^ n).log2 = m.log2 + n := by
  have hm : m ≠ 0 := Nat.ne_of_gt h
  have hpow : 0 < 2 ^ n := Nat.two_pow_pos n
  rw [Nat.log2_eq_iff (Nat.ne_of_gt (Nat.mul_pos h hpow))]
  constructor
  · rw [Nat.pow_add]
    exact Nat.mul_le_mul_right _ (Nat.log2_self_le hm)
  · rw [Nat.add_right_comm, Nat.pow_add]
    exact Nat.mul_lt_mul_of_pos_right Nat.lt_log2_self hpow

/-- Shifting out zeros loses nothing. -/
theorem shiftRight_mul_two_pow (m n : Nat) :
    (⟨m * 2 ^ n, false, false⟩ : ExtendedMantissa) >>> n = ⟨m, false, false⟩ := by
  induction n generalizing m with
  | zero => rw [Nat.pow_zero, Nat.mul_one]; rfl
  | succ n ih =>
      have hshift : (⟨m * 2 ^ (n + 1), false, false⟩ : ExtendedMantissa) >>> n =
          ⟨m * 2, false, false⟩ := by
        rw [Nat.pow_succ', ← Nat.mul_assoc]
        exact ih (m * 2)
      change ExtendedMantissa.shiftRightOne
        ((⟨m * 2 ^ (n + 1), false, false⟩ : ExtendedMantissa) >>> n) = _
      rw [hshift]
      simp [ExtendedMantissa.shiftRightOne]

theorem shiftToTargetExponent_mul_two_pow
    (h : Canonical m e)
    (n : Nat) :
    shiftToTargetExponent Format.binary64 (m * 2 ^ n) (e - n) .exact =
      (⟨m, false, false⟩, e) := by
  have htotal : totalExponent (m * 2 ^ n) (e - n) = totalExponent m e := by
    rw [totalExponent, totalExponent, log2_mul_two_pow h.pos]
    omega
  have hamount : (e - (e - (n : Int))).toNat = n := by omega
  rw [shiftToTargetExponent, htotal, h.targetExponent, shiftToExponent, hamount]
  exact Prod.ext (shiftRight_mul_two_pow m n) (Int.sub_add_cancel e n)

/-- What is stored is a rounding of all that equals it. -/
theorem roundWithAccuracy_mul_two_pow
    (h : Canonical m e)
    (s : Sign) (n : Nat) :
    roundWithAccuracy Format.binary64 s (m * 2 ^ n) (e - n) .exact = .finite s m e h.pos := by
  have hagain := shiftToTargetExponent_mul_two_pow h 0
  rw [Nat.pow_zero, Nat.mul_one, Int.natCast_zero, Int.sub_zero] at hagain
  have hrounded : (⟨m, false, false⟩ : ExtendedMantissa).roundedMantissa = m := rfl
  rw [roundWithAccuracy, shiftToTargetExponent_mul_two_pow h n]
  simp only [hrounded, hagain]
  exact dif_neg (Nat.ne_of_gt h.pos)

end Rounding

section Arithmetic

/-- What a bit pattern stands for is canonical. -/
theorem canonical_of_unpack
    {b : BitVec Format.binary64.numBits} {s : Sign} {m : Nat} {e : Int} {hm : 0 < m}
    (h : UnpackedFloat.unpack Format.binary64 b = .finite s m e hm) :
    Canonical m e := by
  have hbias : ((Format.binary64.exponentBias : Nat) : Int) +
    ((Format.binary64.mantissaBitsWithoutImplicit : Nat) : Int) = 1075 := rfl
  have hlt : (unpackMantissa b).toNat < 2 ^ 52 := (unpackMantissa b).isLt
  rw [UnpackedFloat.unpack, hbias] at h
  split at h
  · split at h <;> cases h
  · split at h
    · rename_i hzero
      split at h
      · cases h
      · -- A number of the least exponent, without the leading bit.
        rw [hzero] at h
        cases h
        exact ⟨hm, by omega, by decide, .inr (by decide)⟩
    · -- Any other number, where the leading bit is not stored.
      rename_i hzero
      have hleading : (1#1 ++ unpackMantissa b).toNat = 2 ^ 52 + (unpackMantissa b).toNat := by
        rw [BitVec.toNat_append, Nat.shiftLeft_eq, Nat.mul_comm]
        exact (Nat.two_pow_add_eq_or_of_lt hlt 1).symm
      have hexponent : (unpackExponent b).toNat ≠ 0 := fun h => hzero (BitVec.eq_of_toNat_eq h)
      cases h
      exact ⟨hm, by omega, by omega, .inl (by omega)⟩

/-- Storing what was stored gives it back. -/
theorem ofModel_pack_unpack (x : Float) :
    Float.ofModel (.pack x.toModel.unpack) = x :=
  Float.ofBits_toBits x

theorem mul_one (x : Float) : x * 1 = x := by
  have hone : (1 : Float).toModel.unpack = .finite .positive (2 ^ 52) (-52) (by decide) := rfl
  have hmul : UnpackedFloat.mul Format.binary64 x.toModel.unpack (1 : Float).toModel.unpack =
      x.toModel.unpack := by
    rw [hone]
    have hpositive : ∀ s : Sign, s * .positive = s := fun s => by cases s <;> rfl
    cases hx : x.toModel.unpack with
    | finite s m e hm =>
        rw [UnpackedFloat.mul, hpositive]
        exact roundWithAccuracy_mul_two_pow (canonical_of_unpack hx) s 52
    | _ => simp only [UnpackedFloat.mul, hpositive]
  calc
    x * 1 = .ofModel (.pack (UnpackedFloat.mul Format.binary64 x.toModel.unpack
      (1 : Float).toModel.unpack)) := rfl
    _ = x := by rw [hmul, ofModel_pack_unpack]

/-- A sum with a zero is the other operand, if this is not a zero. -/
theorem add_eq_right
    {x y : Float} {s : Sign}
    (hx : x.toModel.unpack = .zero s)
    (hy : ∀ s', y.toModel.unpack ≠ .zero s') :
    x + y = y := by
  have hadd : UnpackedFloat.add Format.binary64 x.toModel.unpack y.toModel.unpack =
      y.toModel.unpack := by
    rw [hx]
    cases hu : y.toModel.unpack with
    | zero s' => exact absurd hu (hy s')
    | _ => rfl
  calc
    x + y = .ofModel (.pack (UnpackedFloat.add Format.binary64 x.toModel.unpack
      y.toModel.unpack)) := rfl
    _ = y := by rw [hadd, ofModel_pack_unpack]

theorem eq_of_unpack_eq
    {x y : Float}
    (h : x.toModel.unpack = y.toModel.unpack) :
    x = y := by
  rw [← ofModel_pack_unpack x, h, ofModel_pack_unpack]

/-- A number other than `-0` does not change when 0 is added, and `-0` changes nothing. -/
theorem zero_add {x : Float} (h : x ≠ -0.0) : 0 + x = x := by
  cases hu : x.toModel.unpack with
  | zero s =>
      cases s with
      | positive =>
          obtain rfl : x = 0 := eq_of_unpack_eq hu
          rfl
      | negative => exact absurd (eq_of_unpack_eq hu) h
  | _ => exact add_eq_right rfl (by simp [hu])

theorem negZero_add (x : Float) : -0.0 + x = x := by
  cases hu : x.toModel.unpack with
  | zero s =>
      cases s with
      | positive =>
          obtain rfl : x = 0 := eq_of_unpack_eq hu
          rfl
      | negative =>
          obtain rfl : x = -0.0 := eq_of_unpack_eq hu
          rfl
  | _ => exact add_eq_right rfl (by simp [hu])

/-- A sum that starts with 0 differs from one that does not where both operands are `-0`. -/
theorem zero_add_add_iff {x y : Float} : 0 + x + y = x + y ↔ ¬ (x = -0.0 ∧ y = -0.0) := by
  constructor
  · rintro h ⟨rfl, rfl⟩
    exact absurd h (by decide)
  · intro h
    by_cases hx : x = -0.0
    · have hy : y ≠ -0.0 := fun hy => h ⟨hx, hy⟩
      calc
        0 + x + y = 0 + y := by rw [hx]; rfl
        _ = y := zero_add hy
        _ = x + y := by rw [hx, negZero_add]
    · rw [zero_add hx]

/-- The exponent that counts as 2 is 2. -/
theorem eq_two_of_isTwo
    {k : Float}
    (h : Exponent.isTwo k = true) :
    k = 2.0 := by
  rcases (Float.beq_iff_ne_nan_and_eq.1 h).2.2 with htwo | ⟨-, hzero⟩ | ⟨-, hzero⟩
  · exact htwo
  · exact absurd hzero (by decide)
  · exact absurd hzero (by decide)

end Arithmetic
end Binary64
end ReverseMode
