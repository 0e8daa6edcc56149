import Mathlib.Tactic.Ring
import Mathlib.Order.Monotone.Basic
import ShardedQuery.Value.Fingerprint

/-!
# Doubles with one value

The bits of a double, read as a number without the sign, grow with its magnitude
(`Binary64.unitsOf_strictMono`). So different doubles have different values, up to the two zeros
(`Binary64.scaled_eq_iff`). `Binary64.canonical` picks one double for the two zeros and one for all
NaNs, and the order of all doubles is equality of these (`Binary64.order_eq_iff`). Integers of at most
fifty-three bits are not rounded, so they are known by their doubles
(`Binary64.eq_of_canonical_ofInt`).
-/

namespace ShardedQuery.Binary64

variable {x y : Binary64} {f n : Nat}

/-! ## Magnitudes -/

/-- The magnitude that the lower sixty-three bits stand for. -/
def unitsOf (w : Nat) : Nat :=
  (if w / 2 ^ 52 = 0 then w % 2 ^ 52 else 2 ^ 52 + w % 2 ^ 52) * 2 ^ (w / 2 ^ 52 - 1)

/-- The bits without the sign. -/
def unsigned (x : Binary64) : Nat := x.bits.toNat % 2 ^ 63

theorem exponentField_eq (x : Binary64) : x.exponentField = x.unsigned / 2 ^ 52 := by
  simp only [exponentField, unsigned, Nat.pow_eq]
  omega

theorem fraction_eq (x : Binary64) : x.fraction = x.unsigned % 2 ^ 52 := by
  simp only [fraction, unsigned, Nat.pow_eq]
  omega

theorem magnitude_eq (x : Binary64) : x.magnitude = unitsOf x.unsigned := by
  simp only [magnitude, significand, place, unitsOf, exponentField_eq, fraction_eq, Nat.pow_eq]

theorem unitsOf_subnormal (h : f < 2 ^ 52) : unitsOf f = f := by
  rw [unitsOf, Nat.div_eq_of_lt h, if_pos rfl, Nat.mod_eq_of_lt h, Nat.zero_sub, pow_zero, mul_one]

theorem unitsOf_normal (e : Nat) (h : f < 2 ^ 52) :
    unitsOf ((e + 1) * 2 ^ 52 + f) = (2 ^ 52 + f) * 2 ^ e := by
  have hdiv : ((e + 1) * 2 ^ 52 + f) / 2 ^ 52 = e + 1 := by omega
  have hmod : ((e + 1) * 2 ^ 52 + f) % 2 ^ 52 = f := by omega
  rw [unitsOf, hdiv, hmod, if_neg (Nat.succ_ne_zero e), Nat.add_sub_cancel]

/-- With the next larger bits, the fraction grows by one or starts again at the next exponent. -/
theorem unitsOf_lt_succ (w : Nat) : unitsOf w < unitsOf (w + 1) := by
  obtain ⟨e, f, hf, rfl⟩ : ∃ e f, f < 2 ^ 52 ∧ e * 2 ^ 52 + f = w :=
    ⟨w / 2 ^ 52, w % 2 ^ 52, by omega, by omega⟩
  have hpow (k : Nat) : 0 < 2 ^ k := Nat.two_pow_pos k
  cases e with
  | zero =>
    rw [zero_mul, zero_add, unitsOf_subnormal hf]
    obtain hlt | hlast := Nat.lt_or_eq_of_le (Nat.succ_le_of_lt hf)
    · rw [unitsOf_subnormal hlt]
      exact Nat.lt_succ_self f
    · have hnext : f + 1 = (0 + 1) * 2 ^ 52 + 0 := by omega
      rw [hnext, unitsOf_normal 0 (hpow 52)]
      omega
  | succ e =>
    rw [unitsOf_normal e hf]
    obtain hlt | hlast := Nat.lt_or_eq_of_le (Nat.succ_le_of_lt hf)
    · rw [add_assoc, unitsOf_normal e hlt]
      exact Nat.mul_lt_mul_of_pos_right (by omega) (hpow e)
    · have hnext : (e + 1) * 2 ^ 52 + f + 1 = (e + 1 + 1) * 2 ^ 52 + 0 := by omega
      rw [hnext, unitsOf_normal (e + 1) (hpow 52)]
      calc (2 ^ 52 + f) * 2 ^ e < (2 ^ 52 * 2) * 2 ^ e :=
            Nat.mul_lt_mul_of_pos_right (by omega) (hpow e)
        _ = (2 ^ 52 + 0) * 2 ^ (e + 1) := by ring

theorem unitsOf_strictMono : StrictMono unitsOf := strictMono_nat_of_lt_succ unitsOf_lt_succ

theorem magnitude_inj : x.magnitude = y.magnitude ↔ x.unsigned = y.unsigned := by
  rw [magnitude_eq, magnitude_eq, unitsOf_strictMono.injective.eq_iff]

theorem magnitude_eq_zero_iff : x.magnitude = 0 ↔ x.unsigned = 0 := by
  have hzero : unitsOf 0 = 0 := unitsOf_subnormal (Nat.two_pow_pos 52)
  rw [magnitude_eq]
  exact ⟨fun h => unitsOf_strictMono.injective (h.trans hzero.symm), fun h => h ▸ hzero⟩

/-! ## Signs -/

theorem eq_of_unsigned (hsign : x.isNegative = y.isNegative) (h : x.unsigned = y.unsigned) :
    x = y := by
  obtain ⟨v⟩ := x
  obtain ⟨w⟩ := y
  have hv := v.toNat_lt
  have hw := w.toNat_lt
  simp only [isNegative, unsigned, Nat.pow_eq, decide_eq_decide] at hsign h
  rw [UInt64.toNat_inj.1 (by omega : v.toNat = w.toNat)]

theorem natAbs_scaled (x : Binary64) : x.scaled.natAbs = x.magnitude := by
  unfold scaled
  split
  · rw [Int.natAbs_neg, Int.natAbs_natCast]
  · rw [Int.natAbs_natCast]

/-- Two doubles have one value if they are the same or the two zeros. -/
theorem scaled_eq_iff : x.scaled = y.scaled ↔ x = y ∨ (x.magnitude = 0 ∧ y.magnitude = 0) := by
  constructor
  · intro h
    have hmag : x.magnitude = y.magnitude := by rw [← natAbs_scaled, ← natAbs_scaled, h]
    by_cases hsign : x.isNegative = y.isNegative
    · exact .inl (eq_of_unsigned hsign (magnitude_inj.1 hmag))
    · right
      unfold scaled at h
      cases hx : x.isNegative <;> cases hy : y.isNegative <;> simp [hx, hy] at hsign h
      · omega
      · omega
  · rintro (rfl | ⟨hx, hy⟩)
    · rfl
    · simp [scaled, hx, hy]

/-! ## Doubles up to the sign of zero and the payload of NaNs -/

/-- The double with zero made positive and one NaN for all. -/
def canonical (x : Binary64) : Binary64 :=
  if x.isNaN then ⟨0x7ff8000000000000⟩ else if x.magnitude = 0 then ⟨0⟩ else x

/-- The order of all doubles: NaNs are above the others and equal to each other. -/
def order (x y : Binary64) : Ordering :=
  if x.isNaN || y.isNaN then compare x.isNaN y.isNaN else compare x.scaled y.scaled

theorem isNaN_canonical (x : Binary64) : x.canonical.isNaN = x.isNaN := by
  unfold canonical
  split
  · next h => rw [h]; decide +kernel
  · next h =>
    rw [Bool.not_eq_true] at h
    rw [h]
    split
    · decide +kernel
    · exact h

theorem scaled_canonical (hx : x.isNaN = false) : x.canonical.scaled = x.scaled := by
  unfold canonical
  rw [hx, if_neg Bool.false_ne_true]
  split
  · next h =>
    rw [scaled_eq_iff]
    exact .inr ⟨by decide +kernel, h⟩
  · rfl

theorem canonical_eq_iff (hx : x.isNaN = false) (hy : y.isNaN = false) :
    x.canonical = y.canonical ↔ x.scaled = y.scaled := by
  constructor
  · intro h
    rw [← scaled_canonical hx, h, scaled_canonical hy]
  · intro h
    obtain rfl | ⟨hx0, hy0⟩ := scaled_eq_iff.1 h
    · rfl
    · simp [canonical, hx, hy, hx0, hy0]

theorem order_eq_iff : order x y = .eq ↔ x.canonical = y.canonical := by
  have hnan (h : x.canonical = y.canonical) : x.isNaN = y.isNaN := by
    rw [← isNaN_canonical, h, isNaN_canonical]
  unfold order
  cases hx : x.isNaN with
  | true =>
    cases hy : y.isNaN with
    | true => simp [canonical, hx, hy]
    | false => exact ⟨nofun, fun h => absurd (hnan h) (by simp [hx, hy])⟩
  | false =>
    cases hy : y.isNaN with
    | true => exact ⟨nofun, fun h => absurd (hnan h) (by simp [hx, hy])⟩
    | false =>
      rw [canonical_eq_iff hx hy]
      simp

/-! ## Integers as doubles -/

theorem roundShift_le (n k : Nat) : roundShift n k ≤ n / 2 ^ k + 1 := by
  simp only [roundShift, Nat.pow_eq]
  split
  · exact le_refl _
  · exact Nat.le_succ _

/-- Shifted to the left, an integer of at most fifty-three bits is a significand. -/
theorem shifted_bounds (hn : n ≠ 0) (htop : n.log2 ≤ 52) :
    2 ^ 52 ≤ n * 2 ^ (52 - n.log2) ∧ n * 2 ^ (52 - n.log2) < 2 ^ 53 := by
  have hpow : 2 ^ n.log2 * 2 ^ (52 - n.log2) = 2 ^ 52 := by
    rw [← pow_add, Nat.add_sub_cancel' htop]
  constructor
  · calc 2 ^ 52 = 2 ^ n.log2 * 2 ^ (52 - n.log2) := hpow.symm
      _ ≤ n * 2 ^ (52 - n.log2) := Nat.mul_le_mul_right _ (Nat.log2_self_le hn)
  · calc n * 2 ^ (52 - n.log2) < 2 ^ (n.log2 + 1) * 2 ^ (52 - n.log2) :=
          Nat.mul_lt_mul_of_pos_right Nat.lt_log2_self (Nat.two_pow_pos _)
      _ = 2 * (2 ^ n.log2 * 2 ^ (52 - n.log2)) := by ring
      _ = 2 ^ 53 := by rw [hpow]; rfl

/-- Shifted to the right, a longer integer is not longer than a significand. -/
theorem rounded_le (htop : 52 < n.log2) : roundShift n (n.log2 - 52) ≤ 2 ^ 53 := by
  have hlt : n / 2 ^ (n.log2 - 52) < 2 ^ 53 := by
    rw [Nat.div_lt_iff_lt_mul (Nat.two_pow_pos _), ← pow_add]
    exact lt_of_lt_of_eq Nat.lt_log2_self (congrArg _ (by omega))
  exact le_trans (roundShift_le n _) hlt

/-- An integer of at most sixty-four bits is rounded to a finite number. -/
theorem natBits_lt (h : n < 2 ^ 64) : natBits n < 2047 * 2 ^ 52 := by
  simp only [natBits, Nat.pow_eq]
  split
  · exact Nat.mul_pos (by decide) (Nat.two_pow_pos 52)
  · next hn =>
    have htop : n.log2 < 64 := (Nat.log2_lt hn).2 h
    split
    · next hle =>
      have := (shifted_bounds hn hle).2
      omega
    · next hgt =>
      have := rounded_le (not_le.1 hgt)
      omega

/-- An integer of at most fifty-three bits is not rounded. -/
theorem unitsOf_natBits (h : n ≤ 2 ^ 53) : unitsOf (natBits n) = n * 2 ^ 1074 := by
  obtain rfl | hn := eq_or_ne n 0
  · rw [zero_mul]
    exact unitsOf_subnormal (Nat.two_pow_pos 52)
  · obtain rfl | hlt := eq_or_lt_of_le h
    · decide +kernel
    · have htop : n.log2 ≤ 52 := Nat.lt_succ_iff.1 ((Nat.log2_lt hn).2 hlt)
      have hbounds := shifted_bounds hn htop
      have hbits : natBits n =
          (n.log2 + 1022 + 1) * 2 ^ 52 + (n * 2 ^ (52 - n.log2) - 2 ^ 52) := by
        simp only [natBits, Nat.pow_eq, if_neg hn, if_pos htop]
        omega
      have hexponent : 52 - n.log2 + (n.log2 + 1022) = 1074 := by omega
      rw [hbits, unitsOf_normal _ (by omega), Nat.add_sub_cancel' hbounds.1, mul_assoc, ← pow_add,
        hexponent]

section
variable {n : Int} (h : n.natAbs < 2 ^ 64)
include h

theorem toNat_bits_ofInt :
    (ofInt n).bits.toNat = natBits n.natAbs + if n < 0 then 2 ^ 63 else 0 := by
  have hlt := natBits_lt h
  simp only [ofInt, Nat.pow_eq, UInt64.toNat_ofNat']
  split <;> omega

theorem unsigned_ofInt : (ofInt n).unsigned = natBits n.natAbs := by
  have hlt := natBits_lt h
  rw [unsigned, toNat_bits_ofInt h]
  split <;> omega

theorem isNegative_ofInt : (ofInt n).isNegative = decide (n < 0) := by
  have hlt := natBits_lt h
  rw [isNegative, toNat_bits_ofInt h, Nat.pow_eq, decide_eq_decide]
  split <;> omega

theorem isNaN_ofInt : (ofInt n).isNaN = false := by
  have hlt := natBits_lt h
  have hfield : (ofInt n).exponentField ≠ 2047 := by
    rw [exponentField_eq, unsigned_ofInt h]
    omega
  simp [isNaN, hfield]

end

theorem scaled_ofInt {n : Int} (h : n.natAbs ≤ 2 ^ 53) : (ofInt n).scaled = n * 2 ^ 1074 := by
  have hlt : n.natAbs < 2 ^ 64 := lt_of_le_of_lt h (by decide)
  rw [scaled, isNegative_ofInt hlt, magnitude_eq, unsigned_ofInt hlt, unitsOf_natBits h]
  rw [Nat.cast_mul, Nat.cast_pow, Nat.cast_ofNat, Int.natCast_natAbs]
  split
  · next hneg =>
    rw [abs_of_neg (of_decide_eq_true hneg), neg_mul, neg_neg]
  · next hneg => rw [abs_of_nonneg (by simpa using hneg)]

/-- Integers of at most fifty-three bits are known by their doubles. -/
theorem eq_of_canonical_ofInt {m n : Int} (hm : m.natAbs ≤ 2 ^ 53) (hn : n.natAbs ≤ 2 ^ 53)
    (h : (ofInt m).canonical = (ofInt n).canonical) : m = n := by
  have hlt (k : Int) (hk : k.natAbs ≤ 2 ^ 53) : k.natAbs < 2 ^ 64 := lt_of_le_of_lt hk (by decide)
  rw [canonical_eq_iff (isNaN_ofInt (hlt m hm)) (isNaN_ofInt (hlt n hn)), scaled_ofInt hm,
    scaled_ofInt hn] at h
  exact Int.eq_of_mul_eq_mul_right (pow_ne_zero _ two_ne_zero) h

/-! ## Bytes of a number -/

theorem isIntegral_of_magnitude_eq_zero (h : x.magnitude = 0) : x.isIntegral := by
  have hfield : x.exponentField = 0 := by
    rw [exponentField_eq, magnitude_eq_zero_iff.1 h, Nat.zero_div]
  simp only [isIntegral, isFinite, hfield, h, Nat.zero_mod]
  rfl

theorem isIntegral_eq_false_of_isNaN (h : x.isNaN) : x.isIntegral = false := by
  rw [isNaN, Bool.and_eq_true] at h
  rw [isIntegral, isFinite, beq_iff_eq.1 h.1]
  rfl

end ShardedQuery.Binary64

namespace ShardedQuery.Value

theorem wordBytes_inj {m n : Nat} (hm : m < 2 ^ 64) (hn : n < 2 ^ 64)
    (h : wordBytes m = wordBytes n) : m = n := by
  have hbyte (i : Nat) (hi : i < 8) : m / 256 ^ i % 256 = n / 256 ^ i % 256 := by
    have := congrArg UInt8.toNat (List.map_inj_left.1 h i (List.mem_range.2 hi))
    rwa [UInt8.toNat_ofNat', UInt8.toNat_ofNat'] at this
  have hlow (k : Nat) (hk : k ≤ 8) : m % 256 ^ k = n % 256 ^ k := by
    induction k with
    | zero => rw [pow_zero, Nat.mod_one, Nat.mod_one]
    | succ k ih => rw [Nat.mod_pow_succ, Nat.mod_pow_succ, ih (by omega), hbyte k hk]
  rw [← Nat.mod_eq_of_lt hm, ← Nat.mod_eq_of_lt hn]
  exact hlow 8 (le_refl 8)

/-- Doubles of one value feed the same bytes, unless they are different NaNs. -/
theorem numberBytes_eq_iff {x y : Binary64} (h : x.canonical = y.canonical) :
    numberBytes x = numberBytes y ↔ (x.isNaN → x = y) := by
  have hnan : x.isNaN = y.isNaN := by rw [← x.isNaN_canonical, h, y.isNaN_canonical]
  cases hx : x.isNaN with
  | true =>
    have hy : y.isNaN := hnan ▸ hx
    rw [numberBytes, numberBytes, Binary64.isIntegral_eq_false_of_isNaN hx,
      Binary64.isIntegral_eq_false_of_isNaN hy]
    refine ⟨fun hbytes _ => ?_, fun heq => by rw [heq rfl]⟩
    have hbits := wordBytes_inj x.bits.toNat_lt y.bits.toNat_lt hbytes
    exact congrArg Binary64.mk (UInt64.toNat_inj.1 hbits)
  | false =>
    refine iff_of_true ?_ nofun
    have hvalue := (Binary64.canonical_eq_iff hx (hnan ▸ hx)).1 h
    obtain rfl | ⟨hx0, hy0⟩ := Binary64.scaled_eq_iff.1 hvalue
    · rfl
    · rw [numberBytes, numberBytes, if_pos (Binary64.isIntegral_of_magnitude_eq_zero hx0),
        if_pos (Binary64.isIntegral_of_magnitude_eq_zero hy0), Binary64.toInt64Clamped,
        Binary64.toInt64Clamped, Binary64.scaled_eq_iff.2 (.inr ⟨hx0, hy0⟩)]

end ShardedQuery.Value
