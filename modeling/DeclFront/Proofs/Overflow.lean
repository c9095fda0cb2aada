import DeclFront.Decimal.Basic
import Mathlib.Algebra.Order.Field.Power
import Mathlib.Algebra.Order.Ring.Rat
import Mathlib.Tactic.FieldSimp
import Mathlib.Tactic.GCongr
import Mathlib.Tactic.Linarith
import Mathlib.Tactic.NormNum
import Mathlib.Tactic.Positivity
import Mathlib.Tactic.Ring

/-! Which numbers are too large for a binary format. A decimal number is rounded to infinity exactly
if it reaches the middle between the greatest finite value and the power of two above it. -/

namespace DeclFront

/-! ### Powers and quotients -/

theorem zpow_eq_toNat (b : ℚ) (e : ℤ) : b ^ e = b ^ e.toNat / b ^ (-e).toNat := by
  rcases Int.le_total 0 e with he | he
  · obtain ⟨n, rfl⟩ := Int.eq_ofNat_of_zero_le he
    simp
  · obtain ⟨n, hn⟩ := Int.eq_ofNat_of_zero_le (Int.neg_nonneg.mpr he)
    obtain rfl : e = -(n : ℤ) := by omega
    simp

theorem scaled_quotient (b : ℕ) (hb : b ≠ 0) (num den : ℕ) (e : ℤ) :
    ((num * Nat.pow b (-e).toNat : ℕ) : ℚ) / ((den * Nat.pow b e.toNat : ℕ) : ℚ) =
      (num / den : ℚ) / (b : ℚ) ^ e := by
  have hq : (b : ℚ) ≠ 0 := Nat.cast_ne_zero.mpr hb
  rw [zpow_eq_toNat]
  simp only [Nat.pow_eq, Nat.cast_mul, Nat.cast_pow]
  field_simp

theorem roundHalfEven_ge {num den a : ℕ} (hd : 0 < den) (h : a * den ≤ num) :
    a ≤ roundHalfEven num den := by
  have hdiv : a ≤ num / den := (Nat.le_div_iff_mul_le hd).mpr h
  unfold roundHalfEven
  dsimp only
  split <;> omega

theorem roundHalfEven_le {num den b : ℕ} (h : num < b * den) :
    roundHalfEven num den ≤ b := by
  have hdiv : num / den < b := Nat.div_lt_of_lt_mul (by rwa [Nat.mul_comm])
  unfold roundHalfEven
  dsimp only
  split <;> omega

/-- A quotient is rounded to less than an even number if it is smaller by more than a half. -/
theorem roundHalfEven_lt_iff {num den k : ℕ} (hd : 0 < den) :
    roundHalfEven num den < 2 * k ↔ 2 * num + den < 4 * (den * k) := by
  have hsplit := Nat.div_add_mod num den
  have hrest := Nat.mod_lt num hd
  unfold roundHalfEven
  dsimp only
  generalize num / den = q at hsplit ⊢
  generalize num % den = r at hsplit hrest ⊢
  rcases Nat.lt_or_ge (q + 1) (2 * k) with hq | hq
  · have hmul : den * (q + 2) ≤ den * (2 * k) := Nat.mul_le_mul_left den hq
    rw [Nat.mul_add, Nat.mul_left_comm] at hmul
    refine iff_of_true ?_ (by omega)
    split <;> omega
  rcases Nat.lt_or_ge q (2 * k) with hq' | hq'
  · -- The odd number right below: a half is rounded up.
    have hmul : den * (q + 1) = den * (2 * k) := by
      rw [show q + 1 = 2 * k by omega]
    rw [Nat.mul_add, Nat.mul_left_comm, Nat.mul_one] at hmul
    by_cases hhalf : 2 * r < den
    · have hdown : ¬ (decide (den < 2 * r) || 2 * r == den && q % 2 == 1) = true := by
        simp only [Bool.or_eq_true, Bool.and_eq_true, decide_eq_true_eq, beq_iff_eq]
        omega
      rw [if_neg hdown]
      exact iff_of_true hq' (by omega)
    · have hup : (decide (den < 2 * r) || 2 * r == den && q % 2 == 1) = true := by
        simp only [Bool.or_eq_true, Bool.and_eq_true, decide_eq_true_eq, beq_iff_eq]
        omega
      rw [if_pos hup]
      exact iff_of_false (by omega) (by omega)
  · have hmul : den * (2 * k) ≤ den * q := Nat.mul_le_mul_left den hq'
    rw [Nat.mul_left_comm] at hmul
    refine iff_of_false ?_ (by omega)
    split <;> omega

/-! ### Rounding at a power of two -/

section

variable {num den : ℕ} {e : ℤ}

theorem scaled_den_pos (hd : 0 < den) : 0 < den * Nat.pow 2 e.toNat :=
  Nat.mul_pos hd (Nat.pow_pos (by decide))

theorem round_scaled_ge {a : ℕ} (hd : 0 < den) (h : a * (2 : ℚ) ^ e ≤ num / den) :
    a ≤ roundHalfEven (num * Nat.pow 2 (-e).toNat) (den * Nat.pow 2 e.toNat) := by
  have hden := scaled_den_pos (e := e) hd
  have hden' : (0 : ℚ) < (den * Nat.pow 2 e.toNat : ℕ) := Nat.cast_pos.mpr hden
  have hq : (a : ℚ) ≤ (num / den) / ((2 : ℕ) : ℚ) ^ e := by
    rwa [le_div_iff₀ (by positivity)]
  rw [← scaled_quotient 2 (by decide), le_div_iff₀ hden'] at hq
  exact roundHalfEven_ge hden (by exact_mod_cast hq)

theorem round_scaled_le {b : ℕ} (hd : 0 < den) (h : (num / den : ℚ) < b * (2 : ℚ) ^ e) :
    roundHalfEven (num * Nat.pow 2 (-e).toNat) (den * Nat.pow 2 e.toNat) ≤ b := by
  have hden' : (0 : ℚ) < (den * Nat.pow 2 e.toNat : ℕ) := Nat.cast_pos.mpr (scaled_den_pos hd)
  have hq : (num / den) / ((2 : ℕ) : ℚ) ^ e < b := by
    rwa [div_lt_iff₀ (by positivity)]
  rw [← scaled_quotient 2 (by decide), div_lt_iff₀ hden'] at hq
  exact roundHalfEven_le (by exact_mod_cast hq)

theorem round_scaled_lt_iff {k : ℕ} (hd : 0 < den) :
    roundHalfEven (num * Nat.pow 2 (-e).toNat) (den * Nat.pow 2 e.toNat) < 2 * k ↔
      (num / den : ℚ) < (2 * k - 1 / 2) * (2 : ℚ) ^ e := by
  have hden := scaled_den_pos (e := e) hd
  have hden' : (0 : ℚ) < (den * Nat.pow 2 e.toNat : ℕ) := Nat.cast_pos.mpr hden
  have hquotient := scaled_quotient 2 (by decide) num den e
  rw [roundHalfEven_lt_iff hden, ← div_lt_iff₀ (by positivity)]
  rw [Nat.cast_ofNat] at hquotient
  rw [← hquotient, div_lt_iff₀ hden', ← @Nat.cast_lt ℚ]
  generalize num * Nat.pow 2 (-e).toNat = n
  generalize den * Nat.pow 2 e.toNat = d
  push_cast
  constructor <;> intro h <;> linarith

end

/-! ### Logarithms -/

theorem log2_bounds {n : ℕ} (hn : 0 < n) :
    (2 : ℚ) ^ (n.log2 : ℤ) ≤ n ∧ (n : ℚ) < (2 : ℚ) ^ ((n.log2 : ℤ) + 1) := by
  constructor
  · exact_mod_cast Nat.log2_self_le hn.ne'
  · exact_mod_cast Nat.lt_log2_self (n := n)

theorem zpow_le_quotient_iff {num den : ℕ} (hd : 0 < den) (e : ℤ) :
    den * Nat.pow 2 e.toNat ≤ num * Nat.pow 2 (-e).toNat ↔ (2 : ℚ) ^ e ≤ num / den := by
  have hdq : (0 : ℚ) < den := Nat.cast_pos.mpr hd
  have hpow : (0 : ℚ) < 2 ^ (-e).toNat := by positivity
  rw [zpow_eq_toNat, div_le_div_iff₀ hpow hdq, mul_comm _ (den : ℚ)]
  simp only [Nat.pow_eq]
  exact_mod_cast Iff.rfl

theorem floorLog2_spec {num den : ℕ} (hn : 0 < num) (hd : 0 < den) :
    (2 : ℚ) ^ floorLog2 num den ≤ num / den ∧
      (num / den : ℚ) < (2 : ℚ) ^ (floorLog2 num den + 1) := by
  have hdq : (0 : ℚ) < den := Nat.cast_pos.mpr hd
  obtain ⟨hn₁, hn₂⟩ := log2_bounds hn
  obtain ⟨hd₁, hd₂⟩ := log2_bounds hd
  have hupper : (num / den : ℚ) < 2 ^ ((num.log2 : ℤ) - den.log2 + 1) := by
    rw [div_lt_iff₀ hdq]
    calc (num : ℚ) < 2 ^ ((num.log2 : ℤ) + 1) := hn₂
      _ = 2 ^ ((num.log2 : ℤ) - den.log2 + 1) * 2 ^ (den.log2 : ℤ) := by
        rw [← zpow_add₀ two_ne_zero]
        congr 1
        omega
      _ ≤ 2 ^ ((num.log2 : ℤ) - den.log2 + 1) * den := by gcongr
  have hlower : (2 : ℚ) ^ ((num.log2 : ℤ) - den.log2 - 1) ≤ num / den := by
    rw [le_div_iff₀ hdq]
    calc (2 : ℚ) ^ ((num.log2 : ℤ) - den.log2 - 1) * den
        ≤ 2 ^ ((num.log2 : ℤ) - den.log2 - 1) * 2 ^ ((den.log2 : ℤ) + 1) := by gcongr
      _ = 2 ^ (num.log2 : ℤ) := by
        rw [← zpow_add₀ two_ne_zero]
        congr 1
        omega
      _ ≤ num := hn₁
  unfold floorLog2
  dsimp only
  generalize (num.log2 : ℤ) - den.log2 = guess at hupper hlower ⊢
  by_cases htest : den * Nat.pow 2 guess.toNat ≤ num * Nat.pow 2 (-guess).toNat
  · rw [if_pos htest]
    exact ⟨(zpow_le_quotient_iff hd guess).mp htest, hupper⟩
  · rw [if_neg htest, sub_add_cancel]
    rw [zpow_le_quotient_iff hd, not_le] at htest
    exact ⟨hlower, htest⟩

/-! ### Overflow -/

namespace BinaryFormat

/-- The exponent of the greatest finite values. -/
def greatestExponent (f : BinaryFormat) : ℤ := (2 : ℤ) ^ (f.exponentBits - 1) - f.precision

/-- The middle between the greatest finite value and the power of two above it. -/
def overflow (f : BinaryFormat) : ℚ :=
  ((2 : ℚ) ^ f.precision - 1 / 2) * (2 : ℚ) ^ f.greatestExponent

end BinaryFormat

/-- The numbers that describe a format with a sign, `b + 2` bits for the exponent and `p` bits
behind the hidden one. -/
theorem BinaryFormat.shape {f : BinaryFormat} {p b : ℕ} (hp : f.precision = p + 1)
    (hb : f.exponentBits = b + 2) :
    f.hidden = 2 ^ p ∧ f.infinity = (2 * 2 ^ (b + 1) - 1) * 2 ^ p ∧
      f.leastExponent = 2 - (2 ^ (b + 1) : ℕ) - p ∧
      f.greatestExponent = (2 ^ (b + 1) : ℕ) - 1 - p ∧
      f.overflow = (2 * (2 ^ p : ℕ) - 1 / 2) * 2 ^ f.greatestExponent := by
  have hhidden : f.hidden = 2 ^ p := by simp [BinaryFormat.hidden, hp]
  refine ⟨hhidden, ?_, ?_, ?_, ?_⟩
  · rw [BinaryFormat.infinity, hhidden, hb, Nat.pow_eq, ← pow_succ']
  · rw [BinaryFormat.leastExponent, hp, hb, Nat.pow_eq, Nat.add_succ_sub_one]
    omega
  · rw [BinaryFormat.greatestExponent, hp, hb, Nat.add_succ_sub_one]
    push_cast
    ring
  · rw [BinaryFormat.overflow, hp, pow_succ']
    push_cast
    rfl

theorem overflow_bounds {f : BinaryFormat} {p b : ℕ} (hp : f.precision = p + 1)
    (hb : f.exponentBits = b + 2) :
    (2 : ℚ) ^ (f.greatestExponent + p) < f.overflow ∧
      f.overflow < (2 : ℚ) ^ (f.greatestExponent + p + 1) := by
  obtain ⟨-, -, -, -, hoverflow⟩ := BinaryFormat.shape hp hb
  have hone : (1 : ℚ) ≤ (2 ^ p : ℕ) := by exact_mod_cast Nat.one_le_two_pow
  have hpos : (0 : ℚ) < 2 ^ f.greatestExponent := by positivity
  have hlow : (2 : ℚ) ^ (f.greatestExponent + p) = (2 ^ p : ℕ) * 2 ^ f.greatestExponent := by
    rw [zpow_add₀ two_ne_zero, zpow_natCast, mul_comm]
    push_cast
    rfl
  have hhigh : (2 : ℚ) ^ (f.greatestExponent + p + 1) =
      2 * (2 ^ p : ℕ) * 2 ^ f.greatestExponent := by
    rw [zpow_add_one₀ two_ne_zero, hlow]
    ring
  rw [hlow, hhigh, hoverflow]
  constructor
  · exact mul_lt_mul_of_pos_right (by linarith) hpos
  · exact mul_lt_mul_of_pos_right (by linarith) hpos

/-- Magnitudes count in steps of `2 ^ p` from one exponent to the next: at most two steps above a low
exponent there is room below infinity, and one step above a high one there is none. -/
theorem magnitude_steps {p size k m : ℕ} :
    (k + 2 ≤ 2 * size - 2 → m ≤ 2 * 2 ^ p → k * 2 ^ p + m < (2 * size - 1) * 2 ^ p) ∧
      (2 * size - 1 ≤ k + 1 → 2 ^ p ≤ m → (2 * size - 1) * 2 ^ p ≤ k * 2 ^ p + m) := by
  have hpos := Nat.two_pow_pos p
  constructor
  · intro hk hm
    have hmul := Nat.mul_le_mul_right (2 ^ p) (show k + 2 + 1 ≤ 2 * size - 1 by omega)
    rw [Nat.add_mul, Nat.add_mul] at hmul
    omega
  · intro hk hm
    have hmul := Nat.mul_le_mul_right (2 ^ p) hk
    rw [Nat.add_mul] at hmul
    omega

/-- The nearest magnitude is infinite exactly from the middle on. -/
theorem nearest_lt_infinity_iff {f : BinaryFormat} {p b num den : ℕ} (hp : f.precision = p + 1)
    (hb : f.exponentBits = b + 2) (hn : 0 < num) (hd : 0 < den) :
    f.nearest num den < f.infinity ↔ (num / den : ℚ) < f.overflow := by
  obtain ⟨hlow, hhigh⟩ := floorLog2_spec hn hd
  obtain ⟨hbelow, habove⟩ := overflow_bounds hp hb
  obtain ⟨hhidden, hinf, hleast, hgreatest, hoverflow⟩ := BinaryFormat.shape hp hb
  have hsize : 2 ≤ 2 ^ (b + 1) := Nat.le_self_pow (by omega) 2
  unfold BinaryFormat.nearest
  rw [hinf, hhidden, hp]
  generalize 2 ^ (b + 1) = size at hleast hgreatest hsize ⊢
  generalize hexp : max (floorLog2 num den - (((p + 1 : ℕ) : ℤ) - 1)) f.leastExponent = e
  dsimp only
  have hle : (num / den : ℚ) < (2 * 2 ^ p : ℕ) * 2 ^ e → roundHalfEven
      (num * Nat.pow 2 (-e).toNat) (den * Nat.pow 2 e.toNat) ≤ 2 * 2 ^ p := round_scaled_le hd
  have hge : (2 ^ p : ℕ) * (2 : ℚ) ^ e ≤ num / den → 2 ^ p ≤ roundHalfEven
      (num * Nat.pow 2 (-e).toNat) (den * Nat.pow 2 e.toNat) := round_scaled_ge hd
  have hlt : roundHalfEven (num * Nat.pow 2 (-e).toNat) (den * Nat.pow 2 e.toNat) < 2 * 2 ^ p ↔
      (num / den : ℚ) < (2 * (2 ^ p : ℕ) - 1 / 2) * 2 ^ e := round_scaled_lt_iff hd
  generalize roundHalfEven (num * Nat.pow 2 (-e).toNat) (den * Nat.pow 2 e.toNat) = m
    at hle hge hlt ⊢
  -- Below the last exponent every significand is finite, at it the rounding of the significand
  -- decides, and above it none is.
  rcases lt_trichotomy e f.greatestExponent with hless | heq | hmore
  · have hquotient : (num / den : ℚ) < 2 ^ (e + p + 1) :=
      lt_of_lt_of_le hhigh (zpow_le_zpow_right₀ one_le_two (by omega))
    have hm : m ≤ 2 * 2 ^ p := by
      refine hle (lt_of_lt_of_eq hquotient ?_)
      rw [zpow_add_one₀ two_ne_zero, zpow_add₀ two_ne_zero, zpow_natCast]
      push_cast
      ring
    have hk : (e - f.leastExponent).toNat + 2 ≤ 2 * size - 2 := by omega
    refine iff_of_true (magnitude_steps.1 hk hm) ?_
    have hpow : (2 : ℚ) ^ (e + p + 1) ≤ 2 ^ (f.greatestExponent + p) :=
      zpow_le_zpow_right₀ one_le_two (by omega)
    linarith
  · have hk : (e - f.leastExponent).toNat + 2 = 2 * size - 1 := by omega
    rw [hoverflow, ← heq, ← hlt, ← hk, Nat.add_mul]
    omega
  · have hlog : floorLog2 num den = e + p := by omega
    rw [hlog] at hlow
    have hm : 2 ^ p ≤ m := by
      refine hge (le_of_eq_of_le ?_ hlow)
      rw [zpow_add₀ two_ne_zero, zpow_natCast, mul_comm]
      push_cast
      rfl
    have hk : 2 * size - 1 ≤ (e - f.leastExponent).toNat + 1 := by omega
    refine iff_of_false (Nat.not_lt.mpr (magnitude_steps.2 hk hm)) (not_lt.mpr ?_)
    have hpow : (2 : ℚ) ^ (f.greatestExponent + p + 1) ≤ 2 ^ (e + p) :=
      zpow_le_zpow_right₀ one_le_two (by omega)
    linarith

/-! ### Decimal numbers -/

namespace Decimal

/-- The number without its sign. -/
def absValue (d : Decimal) : ℚ := d.digits * (10 : ℚ) ^ d.exponent

end Decimal

theorem digitCount_bounds {n : ℕ} (hn : 0 < n) :
    (10 : ℚ) ^ ((digitCount n : ℤ) - 1) ≤ n ∧ (n : ℚ) < (10 : ℚ) ^ (digitCount n : ℤ) := by
  have hpos : 0 < digitCount n := Nat.length_toDigits_pos
  have hupper : n < 10 ^ digitCount n :=
    (Nat.length_toDigits_le_iff (by decide) hpos).mp (Nat.le_refl _)
  refine ⟨?_, by exact_mod_cast hupper⟩
  obtain ⟨k, hk⟩ : ∃ k, digitCount n = k + 1 := ⟨digitCount n - 1, by omega⟩
  rw [hk, Nat.cast_succ, add_sub_cancel_right, zpow_natCast]
  have hlower : 10 ^ k ≤ n := by
    rcases Nat.eq_zero_or_pos k with rfl | hk'
    · exact hn
    · refine Nat.le_of_not_lt (fun hlt => ?_)
      have hcount := (Nat.length_toDigits_le_iff (by decide) hk').mpr hlt
      unfold digitCount at hk
      omega
  exact_mod_cast hlower

/-- The order of magnitude of a number bounds it on both sides. -/
theorem absValue_bounds {d : Decimal} (hd : 0 < d.digits) :
    (10 : ℚ) ^ ((digitCount d.digits : ℤ) + d.exponent - 1) ≤ d.absValue ∧
      d.absValue < (10 : ℚ) ^ ((digitCount d.digits : ℤ) + d.exponent) := by
  obtain ⟨hlower, hupper⟩ := digitCount_bounds hd
  have hpos : (0 : ℚ) < 10 ^ d.exponent := by positivity
  have hten : (10 : ℚ) ≠ 0 := by norm_num
  constructor
  · rw [add_sub_right_comm, zpow_add₀ hten]
    exact mul_le_mul_of_nonneg_right hlower hpos.le
  · rw [zpow_add₀ hten]
    exact mul_lt_mul_of_pos_right hupper hpos

theorem magnitude_lt_infinity_iff {f : BinaryFormat} {p b : ℕ} (hp : f.precision = p + 1)
    (hb : f.exponentBits = b + 2) (hwide : f.overflow ≤ 10 ^ (400 : ℤ)) (d : Decimal) :
    d.magnitude f < f.infinity ↔ d.absValue < f.overflow := by
  obtain ⟨-, hinf, -, hgreatest, -⟩ := BinaryFormat.shape hp hb
  have hsize : 2 ≤ 2 ^ (b + 1) := Nat.le_self_pow (by omega) 2
  have hinfinite : 0 < f.infinity := by
    rw [hinf]
    exact Nat.mul_pos (by omega) (Nat.two_pow_pos p)
  have hone : 1 < f.overflow := by
    have hpow : (1 : ℚ) ≤ 2 ^ (f.greatestExponent + p) := one_le_zpow₀ one_le_two (by omega)
    exact lt_of_le_of_lt hpow (overflow_bounds hp hb).1
  unfold Decimal.magnitude
  dsimp only
  rcases Nat.eq_zero_or_pos d.digits with hzero | hpos
  · rw [if_pos (.inl hzero)]
    have hvalue : d.absValue = 0 := by rw [Decimal.absValue, hzero, Nat.cast_zero, zero_mul]
    exact iff_of_true hinfinite (by linarith)
  obtain ⟨hlower, hupper⟩ := absValue_bounds hpos
  by_cases hsmall : (digitCount d.digits : ℤ) + d.exponent < -Decimal.extreme
  · rw [if_pos (.inr hsmall)]
    have htiny : (10 : ℚ) ^ ((digitCount d.digits : ℤ) + d.exponent) ≤ 1 :=
      zpow_le_one_of_nonpos₀ (by norm_num) (by unfold Decimal.extreme at hsmall; omega)
    exact iff_of_true hinfinite (by linarith)
  rw [if_neg (by omega)]
  by_cases hlarge : Decimal.extreme < (digitCount d.digits : ℤ) + d.exponent
  · rw [if_pos hlarge]
    have hhuge : (10 : ℚ) ^ (400 : ℤ) ≤ 10 ^ ((digitCount d.digits : ℤ) + d.exponent - 1) :=
      zpow_le_zpow_right₀ (by norm_num) (by unfold Decimal.extreme at hlarge; omega)
    exact iff_of_false (Nat.lt_irrefl _) (by linarith)
  · rw [if_neg hlarge]
    have hten : ∀ n, 0 < Nat.pow 10 n := fun n => Nat.pow_pos (by decide)
    rw [nearest_lt_infinity_iff hp hb (Nat.mul_pos hpos (hten _)) (hten _)]
    have hvalue : ((d.digits * Nat.pow 10 d.exponent.toNat : ℕ) : ℚ) /
        (Nat.pow 10 (-d.exponent).toNat : ℕ) = d.absValue := by
      rw [Decimal.absValue, zpow_eq_toNat, Nat.pow_eq, Nat.pow_eq, mul_div_assoc']
      push_cast
      rfl
    rw [hvalue]

/-- A number has no finite value in a format if it reaches the middle behind the greatest one. -/
theorem toFinite?_eq_none_iff {f : BinaryFormat} {p b : ℕ} (hp : f.precision = p + 1)
    (hb : f.exponentBits = b + 2) (hwide : f.overflow ≤ 10 ^ (400 : ℤ)) (d : Decimal) :
    d.toFinite? f = none ↔ f.overflow ≤ d.absValue := by
  rw [← not_lt, ← magnitude_lt_infinity_iff hp hb hwide]
  unfold Decimal.toFinite?
  by_cases h : d.magnitude f < f.infinity
  · simp [h]
  · simp [h]

theorem overflow_single : BinaryFormat.single.overflow = 2 ^ 128 - 2 ^ 103 := by
  norm_num [BinaryFormat.overflow, BinaryFormat.greatestExponent, BinaryFormat.single]

theorem overflow_double : BinaryFormat.double.overflow = 2 ^ 1024 - 2 ^ 970 := by
  have hexponent : BinaryFormat.double.greatestExponent = ((970 + 1 : ℕ) : ℤ) := by
    norm_num [BinaryFormat.greatestExponent, BinaryFormat.double]
  have hpow : (2 : ℚ) ^ 1024 = 2 ^ 53 * 2 ^ (970 + 1) := by rw [← pow_add]
  have hprecision : BinaryFormat.double.precision = 53 := rfl
  rw [BinaryFormat.overflow, hexponent, hpow, zpow_natCast, hprecision, pow_succ _ 970]
  generalize (2 : ℚ) ^ 970 = x
  ring

theorem two_pow_le_ten_pow {n : ℕ} (h : n ≤ 1200) : (2 : ℚ) ^ n ≤ 10 ^ (400 : ℤ) := by
  calc (2 : ℚ) ^ n ≤ 2 ^ (3 * 400) := pow_le_pow_right₀ one_le_two h
    _ = (2 ^ 3) ^ 400 := pow_mul 2 3 400
    _ ≤ 10 ^ 400 := pow_le_pow_left₀ (by norm_num) (by norm_num) 400
    _ = 10 ^ (400 : ℤ) := (zpow_natCast 10 400).symm

theorem toFinite?_single (d : Decimal) :
    d.toFinite? .single = none ↔ BinaryFormat.single.overflow ≤ d.absValue := by
  refine toFinite?_eq_none_iff (p := 23) (b := 6) rfl rfl ?_ d
  rw [overflow_single]
  exact le_trans (sub_le_self _ (by positivity)) (two_pow_le_ten_pow (by decide))

theorem toFinite?_double (d : Decimal) :
    d.toFinite? .double = none ↔ BinaryFormat.double.overflow ≤ d.absValue := by
  refine toFinite?_eq_none_iff (p := 52) (b := 9) rfl rfl ?_ d
  rw [overflow_double]
  exact le_trans (sub_le_self _ (by positivity)) (two_pow_le_ten_pow (by decide))

end DeclFront
