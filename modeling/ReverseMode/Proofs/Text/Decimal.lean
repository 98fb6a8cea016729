import ReverseMode.Proofs.Text.Shortest

/-!
# Decimal texts tell numbers apart

**Input.**  The text of a finite binary64 number without an exponent.

**Argument.**  A text is read back as a rational: its digits as a whole number, over ten to the
number of places after the point.  The text of a number reads as the shortest decimal of its
magnitude, which rounds to this magnitude and to no other.

**Results.**
* `readDecimal_positionalText`: what the layout writes reads back as the decimal laid out.
* `magnitude_of_unpack`: the magnitude of a number is what its bits stand for.
* `plain_injective`: finite numbers with the same text are the same number.
-/

namespace ReverseMode
namespace Text

section Reading

/-- The rational that a text of digits with at most one point among them writes. -/
def readDecimal (cs : List Char) : ℚ :=
  Nat.ofDigitChars 10 (cs.filter (· != '.')) 0 *
    10 ^ (-((cs.dropWhile (· != '.')).tail.length : ℤ))

theorem ne_point_of_isDigit {c : Char} (h : c.isDigit = true) : (c != '.') = true := by
  rw [bne_iff_ne]
  rintro rfl
  exact absurd h (by decide)

theorem readDecimal_of_digits
    {cs : List Char}
    (h : ∀ c ∈ cs, c.isDigit = true) :
    readDecimal cs = Nat.ofDigitChars 10 cs 0 := by
  have hpoint : ∀ c ∈ cs, (c != '.') = true := fun c hc => ne_point_of_isDigit (h c hc)
  rw [readDecimal, List.filter_eq_self.2 hpoint, List.dropWhile_eq_nil_iff.2 hpoint]
  simp

theorem readDecimal_of_point
    {whole fraction : List Char}
    (hw : ∀ c ∈ whole, c.isDigit = true)
    (hf : ∀ c ∈ fraction, c.isDigit = true) :
    readDecimal (whole ++ '.' :: fraction) =
      Nat.ofDigitChars 10 (whole ++ fraction) 0 * 10 ^ (-(fraction.length : ℤ)) := by
  have hw' : ∀ c ∈ whole, (c != '.') = true := fun c hc => ne_point_of_isDigit (hw c hc)
  have hf' : ∀ c ∈ fraction, (c != '.') = true := fun c hc => ne_point_of_isDigit (hf c hc)
  have hfilter : (whole ++ '.' :: fraction).filter (· != '.') = whole ++ fraction := by
    rw [List.filter_append, List.filter_eq_self.2 hw', List.filter_cons_of_neg (by decide),
      List.filter_eq_self.2 hf']
  have hdrop : (whole ++ '.' :: fraction).dropWhile (· != '.') = '.' :: fraction := by
    rw [List.dropWhile_append_of_pos hw', List.dropWhile_cons_of_neg (by decide)]
  rw [readDecimal, hfilter, hdrop, List.tail_cons]

/-- Zeros before digits change nothing. -/
theorem ofDigitChars_zeros_append (n : Nat) (ds : List Char) :
    Nat.ofDigitChars 10 (List.replicate n '0' ++ ds) 0 = Nat.ofDigitChars 10 ds 0 := by
  rw [Nat.ofDigitChars_append, Nat.ofDigitChars_replicate_zero, Nat.mul_zero]

variable {ds : List Char}

theorem toList_positionalText (k : Int) :
    (Spelling.plain.positionalText ds k).toList =
      let whole :=
        if k ≤ 0 then ['0']
        else ds.take k.toNat ++ List.replicate (k.toNat - ds.length) '0'
      if ds.length ≤ k.toNat then whole
      else whole ++ '.' :: (List.replicate (-k).toNat '0' ++ ds.drop k.toNat) := by
  rw [Spelling.positionalText]
  dsimp only
  split <;> simp [Spelling.plain]

theorem isDigit_zeros {n : Nat} : ∀ c ∈ List.replicate n '0', c.isDigit = true := by
  intro c hc
  rw [List.eq_of_mem_replicate hc]
  rfl

/-- The digits before the point. -/
theorem isDigit_whole
    (h : ∀ c ∈ ds, c.isDigit = true)
    (k : Int) :
    ∀ c ∈ (if k ≤ 0 then ['0']
      else ds.take k.toNat ++ List.replicate (k.toNat - ds.length) '0'), c.isDigit = true := by
  intro c hc
  split at hc
  · rw [List.mem_singleton.1 hc]
    rfl
  · rcases List.mem_append.1 hc with hc | hc
    · exact h c (List.mem_of_mem_take hc)
    · exact isDigit_zeros c hc

/-- The digits after the point. -/
theorem isDigit_fraction
    (h : ∀ c ∈ ds, c.isDigit = true)
    (k : Int) :
    ∀ c ∈ List.replicate (-k).toNat '0' ++ ds.drop k.toNat, c.isDigit = true := by
  intro c hc
  rcases List.mem_append.1 hc with hc | hc
  · exact isDigit_zeros c hc
  · exact h c (List.mem_of_mem_drop hc)

/-- A text of digits and a point is made of these. -/
theorem mem_positionalText
    (h : ∀ c ∈ ds, c.isDigit = true)
    (k : Int)
    {c : Char}
    (hc : c ∈ (Spelling.plain.positionalText ds k).toList) :
    c.isDigit = true ∨ c = '.' := by
  rw [toList_positionalText] at hc
  dsimp only at hc
  split at hc
  · exact .inl (isDigit_whole h k c hc)
  · rcases List.mem_append.1 hc with hc | hc
    · exact .inl (isDigit_whole h k c hc)
    · rcases List.mem_cons.1 hc with rfl | hc
      · exact .inr rfl
      · exact .inl (isDigit_fraction h k c hc)

theorem positionalText_ne_nil (k : Int) :
    (Spelling.plain.positionalText ds k).toList ≠ [] := by
  rw [toList_positionalText]
  dsimp only
  split
  · rename_i hlen
    split
    · exact List.cons_ne_nil _ _
    · intro h
      have := congrArg List.length h
      simp only [List.length_append, List.length_take, List.length_replicate,
        List.length_nil] at this
      omega
  · simp

/-- What the layout writes reads back as the decimal laid out. -/
theorem readDecimal_positionalText
    (h : ∀ c ∈ ds, c.isDigit = true)
    (k : Int) :
    readDecimal (Spelling.plain.positionalText ds k).toList = decimalValue ds k := by
  rw [toList_positionalText]
  dsimp only
  by_cases hlen : ds.length ≤ k.toNat
  · rw [if_pos hlen, readDecimal_of_digits (isDigit_whole h k)]
    by_cases hk : k ≤ 0
    · obtain rfl : ds = [] := by
        apply List.eq_nil_of_length_eq_zero
        omega
      rw [if_pos hk]
      simp [decimalValue, Nat.ofDigitChars_cons]
    · have hexponent : ((k.toNat - ds.length : Nat) : ℤ) = k - ds.length := by omega
      rw [if_neg hk, List.take_of_length_le hlen, ofDigitChars_append_zeros, decimalValue,
        ← hexponent, zpow_natCast]
      push_cast
      ring
  · rw [if_neg hlen, readDecimal_of_point (isDigit_whole h k) (isDigit_fraction h k)]
    have hexponent : -(((List.replicate (-k).toNat '0' ++ ds.drop k.toNat).length : Nat) : ℤ) =
        k - ds.length := by
      rw [List.length_append, List.length_replicate, List.length_drop]
      omega
    rw [hexponent, decimalValue]
    congr 2
    by_cases hk : k ≤ 0
    · have hzero : k.toNat = 0 := by omega
      rw [if_pos hk, hzero, List.drop_zero, ← List.append_assoc]
      exact ofDigitChars_zeros_append ((-k).toNat + 1) ds
    · have hnone : k.toNat - ds.length = 0 := by omega
      have hneg : (-k).toNat = 0 := by omega
      rw [if_neg hk, hnone, hneg, List.replicate_zero, List.append_nil, List.nil_append,
        List.take_append_drop]

end Reading

section Binary64

open Float.Model Float.Model.UnpackedFloat

variable {x y : Float}

theorem toNat_unpackMantissa (x : Float) :
    (@unpackMantissa Format.binary64 x.toBits.toBitVec).toNat =
      x.toBits.toNat % 2 ^ 52 := by
  simp [unpackMantissa]

theorem toNat_unpackExponent (x : Float) :
    (@unpackExponent Format.binary64 x.toBits.toBitVec).toNat =
      x.toBits.toNat >>> 52 % 2 ^ 11 := by
  simp [unpackExponent]

theorem toNat_unpackSign (x : Float) :
    (@unpackSign Format.binary64 x.toBits.toBitVec).toNat =
      x.toBits.toNat >>> 63 % 2 := by
  simp [unpackSign]

/-- The fields of a bit pattern, as the model of numbers takes them out. -/
theorem fraction_eq (x : Float) :
    (x.toBits % 0x10000000000000).toNat =
      (@unpackMantissa Format.binary64 x.toBits.toBitVec).toNat := by
  rw [toNat_unpackMantissa]
  rfl

theorem biased_eq (x : Float) :
    (x.toBits >>> 52 % 0x800).toNat =
      (@unpackExponent Format.binary64 x.toBits.toBitVec).toNat := by
  rw [toNat_unpackExponent]
  rfl

theorem signBit_iff (x : Float) :
    signBit x = true ↔
      Sign.ofBitVec (@unpackSign Format.binary64 x.toBits.toBitVec) = .negative := by
  have hbit : signBit x = true ↔ x.toBits.toNat >>> 63 = 1 := by
    rw [signBit, decide_eq_true_iff, ← UInt64.toNat_inj]
    rfl
  have hlt : x.toBits.toNat >>> 63 < 2 := by
    rw [Nat.shiftRight_eq_div_pow]
    have := x.toBits.toNat_lt
    omega
  have hsign : (@unpackSign Format.binary64 x.toBits.toBitVec = 0#1) ↔
      x.toBits.toNat >>> 63 = 0 := by
    rw [← BitVec.toNat_inj, toNat_unpackSign, Nat.mod_eq_of_lt hlt]
    rfl
  rw [hbit, Sign.ofBitVec]
  by_cases hzero : x.toBits.toNat >>> 63 = 0
  · rw [if_pos (hsign.2 hzero), hzero]
    exact iff_of_false (by decide) (by simp)
  · rw [if_neg (fun h => hzero (hsign.1 h))]
    exact iff_of_true (by omega) rfl

/-- What the search starts from is what the number stands for. -/
theorem magnitude_of_unpack
    {s : Sign} {m : Nat} {e : Int} {hm : 0 < m}
    (h : x.toModel.unpack = .finite s m e hm) :
    (magnitude x).mantissa = m ∧ (magnitude x).exponent = e ∧ (magnitude x).Canonical ∧
      (signBit x = true ↔ s = .negative) := by
  have hstored := Binary64.canonical_of_unpack h
  have hbias : ((Format.binary64.exponentBias : Nat) : Int) +
    ((Format.binary64.mantissaBitsWithoutImplicit : Nat) : Int) = 1075 := rfl
  have hlt : (@unpackMantissa Format.binary64 x.toBits.toBitVec).toNat < 2 ^ 52 :=
    (@unpackMantissa Format.binary64 x.toBits.toBitVec).isLt
  have hsign := signBit_iff x
  change UnpackedFloat.unpack Format.binary64 x.toBits.toBitVec = _ at h
  rw [UnpackedFloat.unpack, hbias] at h
  rw [magnitude, fraction_eq, biased_eq]
  split at h
  · split at h <;> cases h
  · split at h
    · rename_i hzero
      split at h
      · cases h
      · -- A number of the least exponent, without the leading bit.
        have hbiased : (@unpackExponent Format.binary64 x.toBits.toBitVec).toNat = 0 := by
          rw [hzero]
          rfl
        rw [hbiased] at h ⊢
        cases h
        exact ⟨rfl, rfl, ⟨hstored, by simp⟩, hsign⟩
    · -- Any other number, where the leading bit is not stored.
      rename_i hzero
      have hleading : (1#1 ++ @unpackMantissa Format.binary64 x.toBits.toBitVec).toNat =
          0x10000000000000 + (@unpackMantissa Format.binary64 x.toBits.toBitVec).toNat := by
        rw [BitVec.toNat_append, Nat.shiftLeft_eq, Nat.mul_comm]
        exact (Nat.two_pow_add_eq_or_of_lt hlt 1).symm
      have hbiased : (@unpackExponent Format.binary64 x.toBits.toBitVec).toNat ≠ 0 :=
        fun h => hzero (BitVec.eq_of_toNat_eq h)
      cases h
      rw [if_neg hbiased]
      refine ⟨hleading.symm, rfl, ⟨?_, ?_⟩, hsign⟩
      · rw [← hleading]
        exact hstored
      · simp
        omega

/-- What the digits of a finite number write: 0 for a zero, and for any other number a rational
that rounds to its magnitude. -/
inductive ReadsAs (x : Float) (r : ℚ) : Prop where
  | zero {s : Sign}
      (hx : x.toModel.unpack = .zero s)
      (hr : r = 0)
  | nonzero {s : Sign} {m : Nat} {e : Int} {hm : 0 < m}
      (hx : x.toModel.unpack = .finite s m e hm)
      (hr : (magnitude x).Rounds r)

theorem signBit_of_zero
    {s : Sign}
    (h : x.toModel.unpack = .zero s) :
    signBit x = true ↔ s = .negative := by
  cases s with
  | positive =>
      obtain rfl : x = 0 := Binary64.eq_of_unpack_eq h
      exact iff_of_false (by decide) (by simp)
  | negative =>
      obtain rfl : x = -0.0 := Binary64.eq_of_unpack_eq h
      exact iff_of_true (by decide) rfl

theorem eq_of_negative_iff {s t : Sign} (h : s = .negative ↔ t = .negative) : s = t := by
  cases s <;> cases t <;> simp_all

/-- A number is known by its sign and what its digits write. -/
theorem ReadsAs.unique
    {r : ℚ}
    (hx : ReadsAs x r)
    (hy : ReadsAs y r)
    (hsign : signBit x = signBit y) :
    x = y := by
  apply Binary64.eq_of_unpack_eq
  cases hx with
  | zero hx hr =>
      cases hy with
      | zero hy hr' =>
          have := signBit_of_zero hx
          rw [hsign, signBit_of_zero hy] at this
          rw [hx, hy, eq_of_negative_iff this]
      | nonzero hy hr' =>
          exact absurd hr (hr'.pos (magnitude_of_unpack hy).2.2.1).ne'
  | nonzero hx hr =>
      obtain ⟨hmx, hex, hcx, hsx⟩ := magnitude_of_unpack hx
      cases hy with
      | zero hy hr' => exact absurd hr' (hr.pos hcx).ne'
      | nonzero hy hr' =>
          obtain ⟨hmy, hey, hcy, hsy⟩ := magnitude_of_unpack hy
          obtain ⟨hm, he⟩ := hr.unique hcx hcy hr'
          rw [hmx, hmy] at hm
          rw [hex, hey] at he
          rw [hsign, hsy] at hsx
          rw [hx, hy]
          congr 1
          exact eq_of_negative_iff hsx.symm

/-- The decimal of a finite number. -/
theorem ofFloat?_of_isFinite
    (h : x.isFinite = true) :
    ∃ d : Decimal, Decimal.ofFloat? x = some d ∧ d.negative = signBit x ∧
      (∀ c ∈ d.digits, c.isDigit = true) ∧ ReadsAs x (decimalValue d.digits d.point) := by
  have hfinite : x.toModel.unpack.isFinite = true := h
  rw [Decimal.ofFloat?, h]
  cases hu : x.toModel.unpack with
  | infinity s => rw [hu] at hfinite; cases hfinite
  | notANumber => rw [hu] at hfinite; cases hfinite
  | zero s =>
      have hzero : (x == 0.0) = true := by
        cases s with
        | positive => obtain rfl : x = 0 := Binary64.eq_of_unpack_eq hu; decide
        | negative => obtain rfl : x = -0.0 := Binary64.eq_of_unpack_eq hu; decide
      rw [hzero]
      exact ⟨_, rfl, rfl, by simp, .zero hu (by simp [decimalValue])⟩
  | finite s m e hm =>
      have hzero : (x == 0.0) = false := by
        rw [← Bool.not_eq_true, Float.beq_iff_ne_nan_and_eq]
        rintro ⟨-, -, rfl | ⟨rfl, -⟩ | ⟨rfl, -⟩⟩ <;> cases hu
      rw [hzero]
      obtain ⟨hdigits, hrounds⟩ := rounds_shortest (magnitude_of_unpack hu).2.2.1
      exact ⟨_, rfl, rfl, hdigits, .nonzero hu hrounds⟩

/-- The text of a finite number: a sign, then digits that may have a point among them. -/
theorem toList_plain_of_isFinite
    (h : x.isFinite = true) :
    ∃ (ds : List Char) (k : Int),
      (Numeral.plain x).toList =
        (if signBit x then ['-'] else []) ++ (Spelling.plain.positionalText ds k).toList ∧
      (∀ c ∈ ds, c.isDigit = true) ∧ ReadsAs x (decimalValue ds k) := by
  obtain ⟨d, hd, hnegative, hdigits, hreads⟩ := ofFloat?_of_isFinite h
  have hnan : x.isNaN = false := by
    have hfinite : x.toModel.unpack.isFinite = true := h
    change x.toModel.unpack.isNaN = false
    cases hu : x.toModel.unpack with
    | notANumber => rw [hu] at hfinite; cases hfinite
    | infinity s | zero s | finite s m e hm => rfl
  refine ⟨d.digits, d.point, ?_, hdigits, hreads⟩
  change (Spelling.plain.render x).toList = _
  rw [Spelling.render, hnan, hd, ← hnegative]
  cases hsign : d.negative <;> simp [hsign, Spelling.plain]

theorem mem_plain
    (h : x.isFinite = true)
    {c : Char}
    (hc : c ∈ (Numeral.plain x).toList) :
    c.isDigit = true ∨ c = '.' ∨ c = '-' := by
  obtain ⟨ds, k, htext, hdigits, -⟩ := toList_plain_of_isFinite h
  rw [htext] at hc
  rcases List.mem_append.1 hc with hc | hc
  · split at hc
    · exact .inr (.inr (List.mem_singleton.1 hc))
    · cases hc
  · rcases mem_positionalText hdigits k hc with hc | hc
    · exact .inl hc
    · exact .inr (.inl hc)

theorem plain_ne_nil (h : x.isFinite = true) : (Numeral.plain x).toList ≠ [] := by
  obtain ⟨ds, k, htext, -, -⟩ := toList_plain_of_isFinite h
  rw [htext]
  exact List.append_ne_nil_of_right_ne_nil _ (positionalText_ne_nil k)

/-- A minus stands in a text for the sign alone. -/
theorem minus_mem_iff
    {ds : List Char}
    (h : ∀ c ∈ ds, c.isDigit = true)
    (k : Int)
    (negative : Bool) :
    '-' ∈ (if negative then ['-'] else []) ++ (Spelling.plain.positionalText ds k).toList ↔
      negative = true := by
  have hminus : '-' ∉ (Spelling.plain.positionalText ds k).toList := by
    intro hmem
    rcases mem_positionalText h k hmem with hc | hc
    · exact absurd hc (by decide)
    · exact absurd hc (by decide)
  cases negative <;> simp [hminus]

/-- Finite numbers with the same text are the same number, the sign of a zero included. -/
theorem plain_injective
    (hx : x.isFinite = true)
    (hy : y.isFinite = true)
    (h : Numeral.plain x = Numeral.plain y) :
    x = y := by
  obtain ⟨ds, k, htx, hdx, hrx⟩ := toList_plain_of_isFinite hx
  obtain ⟨ds', k', hty, hdy, hry⟩ := toList_plain_of_isFinite hy
  have htexts := congrArg String.toList h
  rw [htx, hty] at htexts
  have hsign : signBit x = signBit y := by
    rw [Bool.eq_iff_iff, ← minus_mem_iff hdx k, htexts, minus_mem_iff hdy]
  rw [hsign] at htexts
  have hvalue := congrArg readDecimal (List.append_cancel_left htexts)
  rw [readDecimal_positionalText hdx, readDecimal_positionalText hdy] at hvalue
  rw [hvalue] at hrx
  exact hrx.unique hry hsign

end Binary64

end Text
end ReverseMode
