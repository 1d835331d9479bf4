import Mathlib.Algebra.Order.Field.Power
import Mathlib.Tactic.Linarith
import Mathlib.Tactic.NormNum
import Mathlib.Tactic.Positivity
import Mathlib.Tactic.Ring
import MiniGo.Binary32.Reading

/-!
# Decimal texts are read as the nearest number

A decimal text has an exact value, which is a rational number. It is read as the number that is
nearest to this value; of two that are equally near, the one with the even mantissa is taken.

* `Binary32.NearestMagnitude`: the magnitude that a value is rounded to.
* `Binary32.roundRatio_nearest`, `Binary32.roundDecimal_nearest`: rounding finds it.
* `Binary32.NearestMagnitude.unique`: there is only one.
* `Binary32.DecimalDenotes`, `Binary32.readFinite?_eq_some_iff`: the value of a text, and the number
  that it is read as.
* `Binary32.exists_finite_nearest_iff`: the bound up to which values have a finite nearest number.
* `Binary32.isFinite_ofInt`: integers of 32 bits are below it.

A value is too large for a finite number if it is nearer to the power of two that would come after
the greatest finite number. This power is the value of the bit pattern of infinity, so infinity
needs no case of its own.
-/

namespace MiniGo

/-! ### Nearest integers -/

/-- A natural number that is at most one half away is a nearest one. -/
theorem abs_sub_le_of_half {a : ℚ} {k : ℕ} (half : |a - k| ≤ 1 / 2) (j : ℕ) :
    |a - k| ≤ |a - j| ∧ (|a - k| = |a - j| → j = k ∨ |a - k| = 1 / 2) := by
  by_cases same : j = k
  · subst same
    exact ⟨le_refl _, fun _ => .inl rfl⟩
  · have apart : (1 : ℚ) ≤ |(j : ℚ) - k| := by
      have : (1 : ℤ) ≤ |(j : ℤ) - k| := Int.one_le_abs (sub_ne_zero.2 (by exact_mod_cast same))
      exact_mod_cast this
    have triangle : |(j : ℚ) - k| ≤ |a - k| + |a - j| := by
      rw [show (j : ℚ) - k = (a - k) - (a - j) by ring]
      exact abs_sub _ _
    exact ⟨by linarith, fun tie => .inr (by linarith)⟩

/-- A rounded quotient is at most one half away, and it is even if it is that far away. -/
theorem roundDiv_half {num den : ℕ} (pos : 0 < den) :
    |(num : ℚ) / den - roundDiv num den| ≤ 1 / 2 ∧
      (|(num : ℚ) / den - roundDiv num den| = 1 / 2 → Even (roundDiv num den)) := by
  have denPos : (0 : ℚ) < den := by exact_mod_cast pos
  -- The quotient is its whole part and a rest below one.
  have split : (num : ℚ) / den = (num / den : ℕ) + ((num % den : ℕ) : ℚ) / den := by
    rw [add_div' _ _ _ denPos.ne', div_left_inj' denPos.ne']
    exact_mod_cast (Nat.div_add_mod' num den).symm
  have nonneg : (0 : ℚ) ≤ ((num % den : ℕ) : ℚ) / den := by positivity
  have below : ((num % den : ℕ) : ℚ) / den < 1 :=
    (div_lt_one denPos).2 (by exact_mod_cast Nat.mod_lt num pos)
  have compare : (((num % den : ℕ) : ℚ) / den < 1 / 2 ↔ 2 * (num % den) < den) ∧
      ((1 / 2 : ℚ) < ((num % den : ℕ) : ℚ) / den ↔ den < 2 * (num % den)) := by
    rw [div_lt_div_iff₀ denPos two_pos, div_lt_div_iff₀ two_pos denPos]
    constructor <;> norm_cast <;> omega
  unfold roundDiv
  generalize num / den = q at split ⊢
  generalize ((num % den : ℕ) : ℚ) / den = rest at split nonneg below compare
  simp only
  split_ifs with less more even
  · have : rest < 1 / 2 := compare.1.2 less
    rw [split, add_sub_cancel_left, abs_of_nonneg nonneg]
    exact ⟨this.le, fun tie => absurd tie this.ne⟩
  · have : 1 / 2 < rest := compare.2.2 more
    rw [split, Nat.cast_add_one, add_sub_add_left_eq_sub, abs_of_neg (by linarith)]
    exact ⟨by linarith, fun tie => by linarith⟩
  · have : rest = 1 / 2 :=
      le_antisymm (not_lt.1 (compare.2.not.2 more)) (not_lt.1 (compare.1.not.2 less))
    rw [split, add_sub_cancel_left, this]
    exact ⟨by norm_num, fun _ => Nat.even_iff.2 even⟩
  · have : rest = 1 / 2 :=
      le_antisymm (not_lt.1 (compare.2.not.2 more)) (not_lt.1 (compare.1.not.2 less))
    rw [split, Nat.cast_add_one, add_sub_add_left_eq_sub, this]
    exact ⟨by norm_num, fun _ => Nat.even_iff.2 (by omega)⟩

namespace Binary32

/-! ### Magnitudes in order -/

/-- A mantissa of 24 bits, or less at the least scale, also if it carries over to the next power of
two. -/
theorem units_eq {s k : ℕ} (normal : s = 0 ∨ 2 ^ 23 ≤ k) (le : k ≤ 2 ^ 24) :
    units (s * 2 ^ 23 + k) = k * 2 ^ s := by
  unfold units mantissa shift
  simp only [Nat.pow_eq]
  by_cases small : k < 2 ^ 23
  · obtain rfl : s = 0 := by omega
    rw [if_pos (by omega), show (0 * 2 ^ 23 + k) / 2 ^ 23 - 1 = 0 by omega]
    omega
  · rw [if_neg (by omega)]
    by_cases carry : k = 2 ^ 24
    · subst carry
      rw [show (s * 2 ^ 23 + 2 ^ 24) / 2 ^ 23 - 1 = s + 1 by omega,
        show (s * 2 ^ 23 + 2 ^ 24) % 2 ^ 23 + 2 ^ 23 = 2 ^ 23 by omega, pow_succ]
      ring
    · rw [show (s * 2 ^ 23 + k) / 2 ^ 23 - 1 = s by omega,
        show (s * 2 ^ 23 + k) % 2 ^ 23 + 2 ^ 23 = k by omega]

/-- Each magnitude has a scale and a mantissa. -/
theorem exists_scale (m : ℕ) : ∃ s k, m = s * 2 ^ 23 + k ∧ k < 2 ^ 24 ∧ (s = 0 ∨ 2 ^ 23 ≤ k) := by
  refine ⟨m / 2 ^ 23 - 1, m - (m / 2 ^ 23 - 1) * 2 ^ 23, ?_, ?_, ?_⟩ <;> omega

theorem units_strictMono : StrictMono units := by
  refine strictMono_nat_of_lt_succ fun m => ?_
  obtain ⟨s, k, rfl, below, normal⟩ := exists_scale m
  rw [units_eq normal below.le, add_assoc, units_eq (by omega) (by omega)]
  exact Nat.mul_lt_mul_of_pos_right (by omega) (by positivity)

/-! ### The nearest magnitude -/

/-- How far a value is from a magnitude. -/
def distance (q : ℚ) (m : ℕ) : ℚ := |q - units m / 2 ^ 149|

/-- The magnitude that a value is rounded to: no other is nearer, and if another one is as near, it
is even. -/
structure NearestMagnitude (q : ℚ) (m : ℕ) : Prop where
  bound : m ≤ infinityBits
  closest : ∀ n ≤ infinityBits, distance q m ≤ distance q n
  even : ∀ n ≤ infinityBits, distance q m = distance q n → n = m ∨ Even m

/-- The number that a value is rounded to. -/
def Nearest (q : ℚ) (x : Binary32) : Prop := ∃ m, NearestMagnitude q m ∧ x = ofMagnitude false m

theorem distance_eq (q : ℚ) (m : ℕ) : distance q m = |q * 2 ^ 149 - units m| / 2 ^ 149 := by
  rw [distance, eq_div_iff (by positivity), ← abs_of_pos (show (0 : ℚ) < 2 ^ 149 by positivity),
    ← abs_mul, sub_mul, abs_of_pos (show (0 : ℚ) < 2 ^ 149 by positivity),
    div_mul_cancel₀ _ (by positivity)]

/-- Two magnitudes that are equally near to a value have no third one between them, so one of them
is odd. -/
theorem NearestMagnitude.le {q : ℚ} {m n : ℕ} (hm : NearestMagnitude q m)
    (hn : NearestMagnitude q n) : n ≤ m := by
  by_contra! less
  have tie := le_antisymm (hm.closest n hn.bound) (hn.closest m hm.bound)
  have between := hm.closest (m + 1) (by have := hn.bound; omega)
  have first : (units m : ℚ) < units (m + 1) := by
    exact_mod_cast units_strictMono (Nat.lt_succ_self m)
  simp only [distance_eq, div_left_inj' (show (2 : ℚ) ^ 149 ≠ 0 by positivity),
    div_le_div_iff_of_pos_right (show (0 : ℚ) < 2 ^ 149 by positivity)] at tie between
  by_cases next : n = m + 1
  · subst next
    have evenFirst :=
      (hm.even _ hn.bound
        (le_antisymm (hm.closest _ hn.bound) (hn.closest _ hm.bound))).resolve_left (by omega)
    have evenSecond :=
      (hn.even _ hm.bound
        (le_antisymm (hn.closest _ hm.bound) (hm.closest _ hn.bound))).resolve_left (by omega)
    rw [Nat.even_iff] at evenFirst evenSecond
    omega
  · have second : (units (m + 1) : ℚ) < units n := by exact_mod_cast units_strictMono (by omega)
    rcases abs_cases (q * 2 ^ 149 - units m) with h | h <;>
      rcases abs_cases (q * 2 ^ 149 - units n) with h' | h' <;>
      rcases abs_cases (q * 2 ^ 149 - units (m + 1)) with h'' | h'' <;> linarith

/-- A value is rounded to one magnitude only. -/
theorem NearestMagnitude.unique {q : ℚ} {m n : ℕ} (hm : NearestMagnitude q m)
    (hn : NearestMagnitude q n) : m = n :=
  le_antisymm (hn.le hm) (hm.le hn)

/-- A value above the bit pattern of infinity is rounded to it. -/
theorem nearest_infinity {q : ℚ} (above : (units infinityBits : ℚ) / 2 ^ 149 < q) :
    NearestMagnitude q infinityBits := by
  have farther (n : ℕ) (le : n < infinityBits) : distance q infinityBits < distance q n := by
    have less : (units n : ℚ) / 2 ^ 149 < units infinityBits / 2 ^ 149 :=
      div_lt_div_of_pos_right (by exact_mod_cast units_strictMono le) (by positivity)
    rw [distance, distance, abs_of_pos (by linarith), abs_of_pos (by linarith)]
    linarith
  refine ⟨le_refl _, fun n le => ?_, fun n le tie => ?_⟩
  · rcases le.eq_or_lt with rfl | less
    · exact le_refl _
    · exact (farther n less).le
  · rcases le.eq_or_lt with rfl | less
    · exact .inl rfl
    · exact absurd tie (farther n less).ne

/-- A value below one half of the least positive number is rounded to zero. -/
theorem nearest_zero {q : ℚ} (nonneg : 0 ≤ q) (below : q < 1 / 2 ^ 150) : NearestMagnitude q 0 := by
  have zero : distance q 0 = q := by simp [distance, units, mantissa, abs_of_nonneg nonneg]
  have farther (n : ℕ) (pos : n ≠ 0) : distance q 0 < distance q n := by
    have least : units 0 < units n := units_strictMono (by omega)
    have least : (1 : ℚ) / 2 ^ 149 ≤ units n / 2 ^ 149 :=
      div_le_div_of_nonneg_right (by exact_mod_cast least) (by positivity)
    have half : (1 : ℚ) / 2 ^ 149 = 1 / 2 ^ 150 + 1 / 2 ^ 150 := by norm_num
    rw [zero, distance, abs_of_neg (by linarith)]
    linarith
  refine ⟨Nat.zero_le _, fun n _ => ?_, fun n _ tie => ?_⟩
  · by_cases same : n = 0
    · rw [same]
    · exact (farther n same).le
  · by_cases same : n = 0
    · exact .inl same
    · exact absurd tie (farther n same).ne

/-- Magnitudes above that of infinity do not count. -/
theorem nearest_min {q : ℚ} {m : ℕ} (closest : ∀ n, distance q m ≤ distance q n)
    (even : ∀ n, distance q m = distance q n → n = m ∨ Even m) :
    NearestMagnitude q (min infinityBits m) := by
  by_cases le : m ≤ infinityBits
  · rw [min_eq_right le]
    exact ⟨le, fun n _ => closest n, fun n _ => even n⟩
  · rw [min_eq_left (by omega)]
    refine nearest_infinity ?_
    have near := closest infinityBits
    have less : (units infinityBits : ℚ) / 2 ^ 149 < units m / 2 ^ 149 :=
      div_lt_div_of_pos_right (by exact_mod_cast units_strictMono (not_le.1 le)) (by positivity)
    unfold distance at near
    rcases abs_cases (q - units m / 2 ^ 149) with h | h <;>
      rcases abs_cases (q - units infinityBits / 2 ^ 149) with h' | h' <;> linarith

/-! ### Rounding a ratio -/

/-- A mantissa that is nearest at the scale of a value gives the nearest of all magnitudes. Those
with a smaller scale are below all mantissas of 24 bits, and those with a greater scale are whole at
this scale. -/
theorem closest_of_scale {u : ℚ} {s k : ℕ} (half : |u / 2 ^ s - k| ≤ 1 / 2)
    (even : |u / 2 ^ s - k| = 1 / 2 → Even k) (large : s = 0 ∨ 2 ^ 23 ≤ u / 2 ^ s) (n : ℕ) :
    |u / 2 ^ s - k| ≤ |u / 2 ^ s - units n / 2 ^ s| ∧
      (|u / 2 ^ s - k| = |u / 2 ^ s - units n / 2 ^ s| → units n = k * 2 ^ s ∨ Even k) := by
  have scalePos (t : ℕ) : (0 : ℚ) < 2 ^ t := by positivity
  obtain ⟨t, j, rfl, below, normal⟩ := exists_scale n
  rw [units_eq normal below.le]
  by_cases le : s ≤ t
  · -- At a scale at least as great, magnitudes are whole multiples of this one, of which `k` is
    -- nearest.
    obtain ⟨d, rfl⟩ := Nat.exists_eq_add_of_le le
    have whole : ((j * 2 ^ (s + d) : ℕ) : ℚ) / 2 ^ s = (j * 2 ^ d : ℕ) := by
      rw [div_eq_iff (scalePos s).ne']
      push_cast
      ring
    rw [whole]
    obtain ⟨near, tie⟩ := abs_sub_le_of_half half (j * 2 ^ d)
    refine ⟨near, fun same => ?_⟩
    rcases tie same with rfl | far
    · exact .inl (by ring)
    · exact .inr (even far)
  · -- At a smaller scale, magnitudes are below all mantissas with 24 bits, and `2 ^ 23` is still
    -- nearer.
    have large : (2 : ℚ) ^ 23 ≤ u / 2 ^ s := large.resolve_left (by omega)
    have small : ((j * 2 ^ t : ℕ) : ℚ) / 2 ^ s < 2 ^ 23 := by
      rw [div_lt_iff₀ (scalePos s)]
      have : j * 2 ^ t < 2 ^ 23 * 2 ^ s := calc
        j * 2 ^ t < 2 ^ 24 * 2 ^ t := Nat.mul_lt_mul_of_pos_right below (by positivity)
        _ = 2 ^ 23 * 2 ^ (t + 1) := by ring
        _ ≤ 2 ^ 23 * 2 ^ s := Nat.mul_le_mul_left _ (Nat.pow_le_pow_right (by omega) (by omega))
      exact_mod_cast this
    have near := (abs_sub_le_of_half half (2 ^ 23)).1
    rw [Nat.cast_pow, Nat.cast_ofNat, abs_of_nonneg (sub_nonneg.2 large)] at near
    have farther : |u / 2 ^ s - k| < |u / 2 ^ s - (j * 2 ^ t : ℕ) / 2 ^ s| := by
      rw [abs_of_pos (by linarith : 0 < u / 2 ^ s - (j * 2 ^ t : ℕ) / 2 ^ s)]
      linarith
    exact ⟨farther.le, fun tie => absurd tie farther.ne⟩

/-- The scale of a ratio: it has 24 bits before the point, or less at the least scale. -/
theorem log2_scale {num den : ℕ} (pos : 0 < den) :
    (num : ℚ) / den / 2 ^ (Nat.log2 (num / den) - 23) < 2 ^ 24 ∧
      (Nat.log2 (num / den) - 23 = 0 ∨
        2 ^ 23 ≤ (num : ℚ) / den / 2 ^ (Nat.log2 (num / den) - 23)) := by
  have denPos : (0 : ℚ) < den := by exact_mod_cast pos
  rw [div_div, div_lt_iff₀ (by positivity), le_div_iff₀ (by positivity)]
  constructor
  · have : num / den < 2 ^ (Nat.log2 (num / den) - 23 + 24) :=
      lt_of_lt_of_le Nat.lt_log2_self (Nat.pow_le_pow_right (by omega) (by omega))
    rw [Nat.div_lt_iff_lt_mul pos, pow_add] at this
    have : num < 2 ^ 24 * (den * 2 ^ (Nat.log2 (num / den) - 23)) := by linarith
    exact_mod_cast this
  · by_cases small : Nat.log2 (num / den) - 23 = 0
    · exact .inl small
    · right
      have positive : num / den ≠ 0 := by
        intro zero
        simp [zero] at small
      have := Nat.log2_self_le positive
      rw [show Nat.log2 (num / den) = Nat.log2 (num / den) - 23 + 23 by omega,
        Nat.le_div_iff_mul_le pos, pow_add] at this
      have : 2 ^ 23 * (den * 2 ^ (Nat.log2 (num / den) - 23)) ≤ num := by linarith
      exact_mod_cast this

/-- The magnitude of a ratio is the nearest one. -/
theorem roundRatio_nearest {num den : ℕ} (pos : 0 < den) :
    NearestMagnitude (num / den) (roundRatio num den) := by
  unfold roundRatio
  simp only [Nat.pow_eq]
  have value : (num : ℚ) / den * 2 ^ 149 = ((num * 2 ^ 149 : ℕ) : ℚ) / den := by
    push_cast
    ring
  obtain ⟨less, large⟩ := @log2_scale (num * 2 ^ 149) den pos
  generalize Nat.log2 (num * 2 ^ 149 / den) - 23 = s at less large ⊢
  have scalePos : (0 : ℚ) < 2 ^ s := by positivity
  obtain ⟨half, even⟩ := @roundDiv_half (num * 2 ^ 149) (den * 2 ^ s) (by positivity)
  generalize roundDiv (num * 2 ^ 149) (den * 2 ^ s) = k at half even ⊢
  rw [Nat.cast_mul den, Nat.cast_pow, Nat.cast_ofNat, ← div_div, ← value] at half even
  rw [← value] at less large
  have near := abs_le.1 half
  have atMost : k ≤ 2 ^ 24 := by
    have : (k : ℚ) < (2 ^ 24 + 1 : ℕ) := by
      push_cast
      linarith
    have : k < 2 ^ 24 + 1 := by exact_mod_cast this
    omega
  have normal : s = 0 ∨ 2 ^ 23 ≤ k := by
    refine large.imp_right fun large => ?_
    have : ((2 ^ 23 : ℕ) : ℚ) < (k + 1 : ℕ) := by
      push_cast
      linarith
    have : 2 ^ 23 < k + 1 := by exact_mod_cast this
    omega
  have unitsEq := units_eq normal atMost
  -- Distances are compared in multiples of the last bit of the mantissa.
  have scaled (m : ℕ) : distance ((num : ℚ) / den) m =
      |(num : ℚ) / den * 2 ^ 149 / 2 ^ s - units m / 2 ^ s| * 2 ^ s / 2 ^ 149 := by
    rw [distance_eq, ← sub_div, abs_div, abs_of_pos scalePos, div_mul_cancel₀ _ scalePos.ne']
  have own : (units (s * 2 ^ 23 + k) : ℚ) / 2 ^ s = k := by
    rw [unitsEq, Nat.cast_mul, Nat.cast_pow, Nat.cast_ofNat, mul_div_cancel_right₀ _ scalePos.ne']
  have parity : Even k → Even (s * 2 ^ 23 + k) := fun even => by
    rw [Nat.even_iff] at even ⊢
    omega
  refine nearest_min (fun n => ?_) (fun n tie => ?_)
  · rw [scaled, scaled, own]
    have closest := (closest_of_scale half even large n).1
    gcongr
  · rw [scaled, scaled, own, div_left_inj' (by positivity), mul_left_inj' scalePos.ne'] at tie
    rcases (closest_of_scale half even large n).2 tie with same | even
    · exact .inl (units_strictMono.injective (same.trans unitsEq.symm))
    · exact .inr (parity even)

/-! ### Rounding a decimal -/

theorem digitCount_spec {m : ℕ} (pos : m ≠ 0) :
    10 ^ (digitCount m - 1) ≤ m ∧ m < 10 ^ digitCount m := by
  induction m using Nat.strong_induction_on with
  | _ m ih =>
    rw [digitCount, if_neg pos]
    by_cases small : m / 10 = 0
    · rw [small, digitCount, if_pos rfl]
      omega
    · obtain ⟨low, high⟩ := ih (m / 10) (by omega) small
      have count : digitCount (m / 10) ≠ 0 := by
        intro zero
        rw [zero] at high
        omega
      obtain ⟨d, hd⟩ := Nat.exists_eq_succ_of_ne_zero count
      rw [hd] at low high ⊢
      simp only [Nat.succ_eq_add_one, Nat.add_sub_cancel, pow_succ] at low high ⊢
      omega

/-- The magnitude of a decimal is the nearest one. Its digits tell when it is too large or too small
to be computed with. -/
theorem roundDecimal_nearest (m : ℕ) (e : ℤ) :
    NearestMagnitude (m * 10 ^ e) (roundDecimal m e) := by
  have ten : (1 : ℚ) < 10 := by norm_num
  unfold roundDecimal
  simp only
  split_ifs with zero large small nonneg
  · subst zero
    exact nearest_zero (by simp) (by norm_num)
  · -- `10 ^ 39` is above the power of two that infinity stands for.
    obtain ⟨low, -⟩ := digitCount_spec zero
    have count : 0 < digitCount m := by
      rw [digitCount, if_neg zero]
      omega
    refine nearest_infinity ?_
    calc (units infinityBits : ℚ) / 2 ^ 149 < 10 ^ (39 : ℤ) := by
          rw [show units infinityBits = 2 ^ 128 * 2 ^ 149 by decide]
          norm_num
      _ ≤ 10 ^ ((digitCount m - 1 : ℕ) + e) := zpow_le_zpow_right₀ ten.le (by omega)
      _ = (10 ^ (digitCount m - 1) : ℕ) * 10 ^ e := by
          rw [zpow_add₀ (by norm_num), zpow_natCast]
          push_cast
          rfl
      _ ≤ m * 10 ^ e := by
          have : ((10 ^ (digitCount m - 1) : ℕ) : ℚ) ≤ m := by exact_mod_cast low
          gcongr
  · obtain ⟨-, high⟩ := digitCount_spec zero
    refine nearest_zero (by positivity) ?_
    calc (m : ℚ) * 10 ^ e < (10 ^ digitCount m : ℕ) * 10 ^ e := by
          have : (m : ℚ) < (10 ^ digitCount m : ℕ) := by exact_mod_cast high
          gcongr
      _ = 10 ^ ((digitCount m : ℤ) + e) := by
          rw [zpow_add₀ (by norm_num), zpow_natCast]
          push_cast
          rfl
      _ ≤ 10 ^ (-46 : ℤ) := zpow_le_zpow_right₀ ten.le (by omega)
      _ < 1 / 2 ^ 150 := by norm_num
  · have value : (m : ℚ) * 10 ^ e = (m * Nat.pow 10 e.toNat : ℕ) / (1 : ℕ) := by
      rw [show (10 : ℚ) ^ e = 10 ^ (e.toNat : ℤ) by rw [Int.toNat_of_nonneg nonneg], zpow_natCast,
        Nat.pow_eq]
      push_cast
      ring
    rw [value]
    exact roundRatio_nearest Nat.one_pos
  · have value : (m : ℚ) * 10 ^ e = m / (Nat.pow 10 (-e).toNat : ℕ) := by
      obtain ⟨d, rfl⟩ : ∃ d : ℕ, e = -d := ⟨(-e).toNat, by omega⟩
      rw [neg_neg, Int.toNat_natCast, zpow_neg, zpow_natCast, Nat.pow_eq, div_eq_mul_inv]
      push_cast
      rfl
    rw [value]
    exact roundRatio_nearest (Nat.pow_pos (by omega))

/-! ### Decimal texts -/

/-- The value of an exponent part. -/
inductive ExponentDenotes : List Char → ℤ → Prop
  | absent : ExponentDenotes [] 0
  | present {mark : Char} {sign digits : List Char} (isMark : mark = 'e' ∨ mark = 'E')
      (isSign : sign = [] ∨ sign = ['+'] ∨ sign = ['-']) (some : digits ≠ [])
      (all : ∀ c ∈ digits, c.isDigit = true) :
      ExponentDenotes (mark :: (sign ++ digits))
        (if sign = ['-'] then -(digitsValue digits : ℤ) else digitsValue digits)

/-- The exact value of a decimal text: digits before and after a point, and an exponent of ten. The
point may be absent if there are no digits after it. -/
inductive DecimalDenotes : List Char → ℚ → Prop
  | intro {whole point fraction exponent : List Char} {e : ℤ} (some : whole ++ fraction ≠ [])
      (allWhole : ∀ c ∈ whole, c.isDigit = true) (allFraction : ∀ c ∈ fraction, c.isDigit = true)
      (isPoint : point = ['.'] ∨ point = [] ∧ fraction = []) (power : ExponentDenotes exponent e) :
      DecimalDenotes (whole ++ (point ++ (fraction ++ exponent)))
        (digitsValue (whole ++ fraction) * 10 ^ (e - fraction.length))

/-- What follows a run of characters of a class ends it if it does not begin with such a
character. -/
theorem takeWhile_append_stop {p : Char → Bool} {xs ys : List Char} (all : ∀ c ∈ xs, p c = true)
    (stop : ∀ c ∈ ys.head?, p c = false) :
    (xs ++ ys).takeWhile p = xs ∧ (xs ++ ys).dropWhile p = ys := by
  rw [List.takeWhile_append_of_pos all, List.dropWhile_append_of_pos all]
  cases ys with
  | nil => simp
  | cons y ys => simp [stop y rfl]

/-- An exponent part does not continue the digits before it, and it is no point. -/
theorem ExponentDenotes.head {exponent : List Char} {e : ℤ} (h : ExponentDenotes exponent e) :
    ∀ c ∈ exponent.head?, c.isDigit = false ∧ c ≠ '.' := by
  cases h with
  | absent => simp
  | present isMark => rcases isMark with rfl | rfl <;> simp [Char.isDigit]

theorem isDigits_iff {ds : List Char} :
    isDigits ds = true ↔ ds ≠ [] ∧ ∀ c ∈ ds, c.isDigit = true := by
  simp [isDigits]

theorem splitSign_of_isDigit {c : Char} {cs : List Char} (h : c.isDigit = true ∨ c = '.') :
    splitSign (c :: cs) = (false, c :: cs) := by
  unfold splitSign
  split
  · rename_i eq
    obtain ⟨rfl, -⟩ := List.cons.inj eq
    simp [Char.isDigit] at h
  · rename_i eq
    obtain ⟨rfl, -⟩ := List.cons.inj eq
    simp [Char.isDigit] at h
  · rfl

theorem readExponent?_of_denotes {exponent : List Char} {e : ℤ} (h : ExponentDenotes exponent e) :
    readExponent? exponent = some e := by
  cases h with
  | absent => rfl
  | @present mark sign digits isMark isSign some all =>
    have digitsOk : isDigits digits = true := isDigits_iff.2 ⟨some, all⟩
    rw [readExponent?, if_pos isMark]
    rcases isSign with rfl | rfl | rfl
    · obtain ⟨d, ds, rfl⟩ := List.exists_cons_of_ne_nil some
      rw [List.nil_append, splitSign_of_isDigit (.inl (all d (.head _)))]
      simp [digitsOk, signedValue]
    · simp [splitSign, digitsOk, signedValue]
    · simp [splitSign, digitsOk, signedValue]

/-- A decimal text is read as the magnitude that is nearest to its value. -/
theorem readMagnitude?_nearest {cs : List Char} {q : ℚ} (h : DecimalDenotes cs q) :
    ∃ m, readMagnitude? cs = some m ∧ NearestMagnitude q m := by
  obtain @⟨whole, point, fraction, exponent, e, some, allWhole, allFraction, isPoint, power⟩ := h
  refine ⟨_, ?_, roundDecimal_nearest _ _⟩
  have some : (whole ++ fraction).isEmpty = false := by simpa using some
  obtain ⟨takeFraction, dropFraction⟩ := takeWhile_append_stop allFraction fun c mem =>
    (power.head c mem).1
  unfold readMagnitude?
  rcases isPoint with rfl | ⟨rfl, rfl⟩
  · obtain ⟨takeWhole, dropWhole⟩ :=
      @takeWhile_append_stop Char.isDigit whole (['.'] ++ (fraction ++ exponent)) allWhole
        (by simp [Char.isDigit])
    simp only [takeWhole, dropWhole]
    simp only [List.cons_append, List.nil_append, takeFraction, dropFraction, some,
      readExponent?_of_denotes power]
    rfl
  · obtain ⟨takeWhole, dropWhole⟩ := @takeWhile_append_stop Char.isDigit whole exponent allWhole
      fun c mem => (power.head c mem).1
    simp only [List.nil_append, takeWhole, dropWhole]
    split
    · exact absurd rfl (power.head '.' rfl).2
    · simp only [some, readExponent?_of_denotes power]
      rfl

/-- The names of infinite and undefined values do not begin like a number. -/
theorem named?_of_isDigit {c : Char} {cs : List Char} (h : c.isDigit = true ∨ c = '.') :
    named? (c :: cs) = none := by
  have lower : c.toLower = c := by
    rcases h with digit | rfl
    · simp only [Char.isDigit, Bool.and_eq_true, decide_eq_true_eq] at digit
      unfold Char.toLower
      rw [dif_neg]
      rintro ⟨low, -⟩
      exact absurd (UInt32.le_trans low digit.2) (by decide)
    · rfl
  have ne {word : String} {w : Char} {ws : List Char} (letters : word.toList = w :: ws)
      (isWord : w = 'i' ∨ w = 'n') : String.ofList ((c :: cs).map Char.toLower) ≠ word := by
    intro same
    have same := congrArg String.toList same
    rw [String.toList_ofList, letters, List.map_cons, lower] at same
    obtain rfl := (List.cons.inj same).1
    rcases isWord with rfl | rfl <;> simp [Char.isDigit] at h
  unfold named?
  split
  · rename_i same
    exact absurd same (ne rfl (.inl rfl))
  · rename_i same
    exact absurd same (ne rfl (.inl rfl))
  · rename_i same
    exact absurd same (ne rfl (.inr rfl))
  · rfl

/-- A number of a sign and a magnitude has this sign and this magnitude. -/
theorem ofMagnitude_spec (negative : Bool) {m : ℕ} (below : m < 2 ^ 31) :
    (ofMagnitude negative m).isNegative = negative ∧ (ofMagnitude negative m).magnitude = m := by
  simp only [ofMagnitude, isNegative, magnitude, Nat.pow_eq, UInt32.toNat_ofNat']
  cases negative <;> simp <;> omega

theorem isFinite_ofMagnitude {negative : Bool} {m : ℕ} (bound : m ≤ infinityBits) :
    (ofMagnitude negative m).isFinite = true ↔ m < infinityBits := by
  have below : m < 2 ^ 31 := lt_of_le_of_lt bound (by decide)
  rw [isFinite, (ofMagnitude_spec negative below).2, decide_eq_true_iff]

/-- A decimal text begins with a digit or with its point. -/
theorem DecimalDenotes.head {cs : List Char} {q : ℚ} (h : DecimalDenotes cs q) :
    ∃ c rest, cs = c :: rest ∧ (c.isDigit = true ∨ c = '.') := by
  obtain @⟨whole, point, fraction, exponent, e, some, allWhole, allFraction, isPoint, power⟩ := h
  cases whole with
  | cons c whole => exact ⟨c, _, rfl, .inl (allWhole c (.head _))⟩
  | nil =>
    rcases isPoint with rfl | ⟨rfl, rfl⟩
    · exact ⟨'.', _, rfl, .inr rfl⟩
    · exact absurd rfl some

/-- A decimal text is read as the number that is nearest to its value, if that is finite. -/
theorem readFinite?_eq_some_iff {text : String} {q : ℚ} (h : DecimalDenotes text.toList q)
    {x : Binary32} :
    readFinite? text = some x ↔ x.isFinite = true ∧ Nearest q x := by
  obtain ⟨m, read, nearest⟩ := readMagnitude?_nearest h
  have value : read? text = some (ofMagnitude false m) := by
    obtain ⟨c, cs, eq, start⟩ := h.head
    unfold read?
    rw [eq] at read ⊢
    rw [splitSign_of_isDigit start]
    simp only [named?_of_isDigit start, read]
    rfl
  rw [readFinite?, value, Option.filter_eq_some_iff, Option.some_inj]
  constructor
  · rintro ⟨rfl, finite⟩
    exact ⟨finite, m, nearest, rfl⟩
  · rintro ⟨finite, n, nearest', rfl⟩
    rw [nearest.unique nearest']
    exact ⟨rfl, finite⟩

/-- A decimal text has a finite nearest number exactly if it is read. -/
theorem readFinite?_isSome_iff {text : String} {q : ℚ} (h : DecimalDenotes text.toList q) :
    (readFinite? text).isSome = true ↔ ∃ x : Binary32, x.isFinite = true ∧ Nearest q x := by
  simp only [Option.isSome_iff_exists, readFinite?_eq_some_iff h]

/-- The nearest number is finite below the middle between the greatest finite number and the next
power of two. -/
theorem exists_finite_nearest_iff {q : ℚ} (nonneg : 0 ≤ q) :
    (∃ x : Binary32, x.isFinite = true ∧ Nearest q x) ↔ q < 2 ^ 128 - 2 ^ 103 := by
  have last : (units (infinityBits - 1) : ℚ) / 2 ^ 149 = 2 ^ 128 - 2 ^ 104 := by
    rw [show units (infinityBits - 1) = (2 ^ 24 - 1) * 2 ^ 104 * 2 ^ 149 by decide]
    norm_num
  have next : (units infinityBits : ℚ) / 2 ^ 149 = 2 ^ 128 := by
    rw [show units infinityBits = 2 ^ 128 * 2 ^ 149 by decide]
    norm_num
  constructor
  · rintro ⟨x, finite, m, nearest, rfl⟩
    rw [isFinite_ofMagnitude nearest.bound] at finite
    by_contra! large
    have below : (units m : ℚ) / 2 ^ 149 ≤ units (infinityBits - 1) / 2 ^ 149 :=
      div_le_div_of_nonneg_right (by exact_mod_cast units_strictMono.monotone (by omega))
        (by positivity)
    have near := nearest.closest infinityBits (le_refl _)
    have even := nearest.even infinityBits (le_refl _)
    rw [distance, distance, next, abs_of_pos (by linarith)] at near even
    rcases abs_cases (q - 2 ^ 128) with ⟨eq, -⟩ | ⟨eq, -⟩ <;> rw [eq] at near even
    · linarith
    · -- The value is in the middle, where the even mantissa is that of infinity.
      have middle : (units m : ℚ) / 2 ^ 149 = units (infinityBits - 1) / 2 ^ 149 := by linarith
      rw [div_left_inj' (by positivity)] at middle
      obtain rfl : m = infinityBits - 1 := units_strictMono.injective (by exact_mod_cast middle)
      have even := (even (by linarith)).resolve_left (by omega)
      exact absurd even (by decide)
  · intro small
    have nearest := @roundRatio_nearest q.num.natAbs q.den q.den_pos
    rw [show (q.num.natAbs : ℚ) / q.den = q by
      rw [Nat.cast_natAbs, abs_of_nonneg (Rat.num_nonneg.2 nonneg), Rat.num_div_den]] at nearest
    refine ⟨_, (isFinite_ofMagnitude nearest.bound).2 ?_, _, nearest, rfl⟩
    by_contra! infinite
    have near := nearest.closest (infinityBits - 1) (Nat.sub_le _ _)
    rw [le_antisymm nearest.bound infinite, distance, distance, next, last] at near
    rcases abs_cases (q - 2 ^ 128) with h | h <;> rcases abs_cases (q - (2 ^ 128 - 2 ^ 104)) with
      h' | h' <;> linarith

/-- An integer of 32 bits has a finite nearest number. -/
theorem isFinite_ofInt {i : ℤ} (bound : i.natAbs ≤ 2 ^ 31) : (ofInt i).isFinite = true := by
  have nearest := @roundRatio_nearest i.natAbs 1 one_pos
  have small : (i.natAbs : ℚ) / (1 : ℕ) < 2 ^ 128 - 2 ^ 103 := by
    have le : (i.natAbs : ℚ) ≤ 2 ^ 31 := by exact_mod_cast bound
    norm_num at le ⊢
    linarith
  obtain ⟨x, finite, m, nearest', rfl⟩ := (exists_finite_nearest_iff (by positivity)).2 small
  rw [isFinite_ofMagnitude nearest'.bound, ← nearest.unique nearest'] at finite
  exact (isFinite_ofMagnitude nearest.bound).2 finite

end Binary32

end MiniGo
