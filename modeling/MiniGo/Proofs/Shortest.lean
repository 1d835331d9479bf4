import MiniGo.Binary32.Printing
import MiniGo.Proofs.Rounding

/-!
# Constants are read back from their text

A constant is written with the shortest decimal of its magnitude. The values that are rounded to a
magnitude lie between the middles to the magnitudes beside it, and this is the interval in which the
decimal is looked for: below a power of two the next magnitude is half as far away, and the middles
belong to the interval if the mantissa is even. So the decimal is rounded to the magnitude, and
reading it gives the number back.

* `Binary32.nearest_iff_between`, `Binary32.contains_iff_nearest`: the values that are rounded to a
  magnitude, and the interval of the magnitude.
* `Binary32.Interval.onGrid?_spec`, `Binary32.Interval.search_spec`: what is found on a grid, and by
  a search.
* `Binary32.shortest_nearest`, `Binary32.digitCount_shortest_le`: the shortest decimal is rounded to
  the magnitude, and no decimal with fewer digits is.
* `Binary32.PointedDenotes`, `Binary32.Decimal.text_denotes`: texts with digits before and behind a
  point, and the value of the text of a decimal.
* `Binary32.literal_reads_back`: the text of each finite number is read back as this number.
-/

namespace MiniGo

namespace Binary32

/-! ### Neighbours -/

/-- The shift and the mantissa of a magnitude that is given by them. The shift is zero, or the
mantissa has its leading bit. -/
theorem scale_eq {s k : ℕ} (below : k < 2 ^ 24) (normal : s = 0 ∨ 2 ^ 23 ≤ k) :
    shift (s * 2 ^ 23 + k) = s ∧ mantissa (s * 2 ^ 23 + k) = k := by
  unfold shift mantissa
  simp only [Nat.pow_eq]
  split <;> omega

/-- The next magnitude is one unit of the last bit above. -/
theorem units_succ (m : ℕ) : units (m + 1) = units m + 2 ^ shift m := by
  obtain ⟨s, k, rfl, below, normal⟩ := exists_scale m
  rw [(scale_eq below normal).1, add_assoc, units_eq (by omega) (by omega),
    units_eq normal below.le]
  ring

/-- The end of an interval is in the middle between the magnitude and the next one. -/
theorem interval_high (m : ℕ) : (interval m).high = units m + units (m + 1) := by
  rw [units_succ]
  simp only [interval, Nat.pow_eq]
  omega

/-- The start of an interval is in the middle between the magnitude and the one before it. Below a
power of two the magnitudes lie twice as dense, and the interval starts at a half of the
distance. -/
theorem interval_low (m : ℕ) : (interval (m + 1)).low = units m + units (m + 1) := by
  obtain ⟨s, k, scaled, below, normal⟩ := exists_scale (m + 1)
  obtain ⟨shiftEq, mantissaEq⟩ := scale_eq below normal
  have own : units (m + 1) = k * 2 ^ s := by rw [scaled, units_eq normal below.le]
  simp only [interval, Nat.pow_eq, own]
  rw [scaled, shiftEq, mantissaEq]
  split_ifs with lowest
  · -- The mantissa is a power of two, so the previous magnitude is at the scale below.
    obtain ⟨rfl, pos⟩ := lowest
    obtain ⟨r, rfl⟩ := Nat.exists_eq_succ_of_ne_zero pos.ne'
    have previous : m = r * 2 ^ 23 + (2 ^ 24 - 1) := by omega
    rw [previous, units_eq (by omega) (by omega), Nat.succ_eq_add_one, pow_succ]
    omega
  · -- Otherwise the previous magnitude is one unit of the same scale below.
    have previous : m = s * 2 ^ 23 + (k - 1) := by omega
    rw [previous, units_eq (by omega) (by omega), Nat.sub_mul]
    have : 1 * 2 ^ s ≤ k * 2 ^ s := Nat.mul_le_mul_right _ (by omega)
    omega

/-- The mantissa is even if the bit pattern is. -/
theorem interval_closed (m : ℕ) : (interval m).closed = true ↔ Even m := by
  obtain ⟨s, k, rfl, below, normal⟩ := exists_scale m
  rw [interval, (scale_eq below normal).2, beq_iff_eq, Nat.even_iff]
  omega

/-! ### Intervals -/

/-- Of two numbers, the greater one is as near as the other one from the middle on, and the smaller
one up to it. -/
theorem abs_sub_le_abs_sub_iff {w a b : ℚ} (less : a < b) :
    (|w - b| ≤ |w - a| ↔ a + b ≤ 2 * w) ∧ (|w - a| ≤ |w - b| ↔ 2 * w ≤ a + b) := by
  -- Without the absolute values all claims are linear.
  rcases abs_cases (w - a) with h | h <;> rcases abs_cases (w - b) with h' | h' <;> constructor <;>
    constructor <;>
    intro <;> linarith

/-- Of two magnitudes, the greater one is as near as the other one from the middle on, and the
smaller one up to it. -/
theorem distance_le_iff {q : ℚ} {m n : ℕ} (less : m < n) :
    (distance q n ≤ distance q m ↔ ((units m + units n : ℕ) : ℚ) ≤ q * 2 ^ 150) ∧
      (distance q m ≤ distance q n ↔ q * 2 ^ 150 ≤ (units m + units n : ℕ)) := by
  have less : (units m : ℚ) < units n := by exact_mod_cast units_strictMono less
  obtain ⟨above, below⟩ := @abs_sub_le_abs_sub_iff (q * 2 ^ 149) _ _ less
  have twice : 2 * (q * 2 ^ 149) = q * 2 ^ 150 := by ring
  rw [distance_eq, distance_eq, div_le_div_iff_of_pos_right (by positivity),
    div_le_div_iff_of_pos_right (by positivity), above, below, twice, Nat.cast_add]
  exact ⟨Iff.rfl, Iff.rfl⟩

/-- A value is rounded to a magnitude if it is between the middles to the magnitudes beside it. The
middles themselves are rounded to it if it is even. -/
theorem nearest_iff_between {q : ℚ} {m : ℕ} (finite : m + 1 < infinityBits) :
    NearestMagnitude q (m + 1) ↔
      (((units m + units (m + 1) : ℕ) : ℚ) ≤ q * 2 ^ 150 ∧
        q * 2 ^ 150 ≤ (units (m + 1) + units (m + 2) : ℕ)) ∧
      (¬ Even (m + 1) →
        ((units m + units (m + 1) : ℕ) : ℚ) < q * 2 ^ 150 ∧
        q * 2 ^ 150 < (units (m + 1) + units (m + 2) : ℕ)) := by
  obtain ⟨fromBelow, toBelow⟩ := @distance_le_iff q m (m + 1) (Nat.lt_succ_self m)
  obtain ⟨toAbove, fromAbove⟩ := @distance_le_iff q (m + 1) (m + 2) (Nat.lt_succ_self _)
  constructor
  · -- Only the magnitudes beside it matter: at a tie with one of them the mantissa is even.
    intro nearest
    have low := nearest.closest m (by omega)
    have high := nearest.closest (m + 2) (by omega)
    refine ⟨⟨fromBelow.1 low, fromAbove.1 high⟩, fun odd => ⟨?_, ?_⟩⟩
    · refine lt_of_le_of_ne (fromBelow.1 low) fun middle => ?_
      have tie := le_antisymm low (toBelow.2 middle.ge)
      exact odd ((nearest.even m (by omega) tie).resolve_left (by omega))
    · refine lt_of_le_of_ne (fromAbove.1 high) fun middle => ?_
      have tie := le_antisymm high (toAbove.2 middle.ge)
      exact odd ((nearest.even (m + 2) (by omega) tie).resolve_left (by omega))
  · rintro ⟨⟨low, high⟩, strict⟩
    -- All other magnitudes are at least as far away as those beside it.
    have beside (n : ℕ) : distance q (m + 1) ≤ distance q n ∧
        (distance q (m + 1) = distance q n → n = m + 1 ∨ Even (m + 1)) := by
      rcases Nat.lt_trichotomy n (m + 1) with less | rfl | more
      · obtain ⟨from_, to_⟩ := @distance_le_iff q n (m + 1) less
        have farther : ((units n + units (m + 1) : ℕ) : ℚ) ≤ (units m + units (m + 1) : ℕ) := by
          exact_mod_cast Nat.add_le_add_right (units_strictMono.monotone (by omega)) _
        refine ⟨from_.2 (farther.trans low), fun tie => .inr ?_⟩
        by_contra odd
        exact absurd ((strict odd).1.trans_le ((to_.1 tie.ge).trans farther)) (lt_irrefl _)
      · exact ⟨le_refl _, fun _ => .inl rfl⟩
      · obtain ⟨from_, to_⟩ := @distance_le_iff q (m + 1) n more
        have farther : ((units (m + 1) + units (m + 2) : ℕ) : ℚ) ≤
            (units (m + 1) + units n : ℕ) := by
          exact_mod_cast Nat.add_le_add_left (units_strictMono.monotone (by omega)) _
        refine ⟨to_.2 (high.trans farther), fun tie => .inr ?_⟩
        by_contra odd
        exact absurd ((strict odd).2.trans_le (farther.trans (from_.1 tie.ge))) (lt_irrefl _)
    exact ⟨finite.le, fun n _ => (beside n).1, fun n _ => (beside n).2⟩

/-- The interval of a magnitude contains the values that are rounded to it. -/
theorem contains_iff_nearest {m num den : ℕ} (pos : 0 < m) (finite : m < infinityBits)
    (denPos : 0 < den) :
    (interval m).contains num den = true ↔ NearestMagnitude (num / den / 2 ^ 150) m := by
  obtain ⟨m, rfl⟩ := Nat.exists_eq_succ_of_ne_zero pos.ne'
  have denPos : (0 : ℚ) < den := by exact_mod_cast denPos
  have scaled : (num : ℚ) / den / 2 ^ 150 * 2 ^ 150 = num / den := div_mul_cancel₀ _ (by positivity)
  rw [Nat.succ_eq_add_one, nearest_iff_between finite, scaled, le_div_iff₀ denPos,
    div_le_iff₀ denPos, lt_div_iff₀ denPos, div_lt_iff₀ denPos, Interval.contains, interval_low,
    interval_high]
  norm_cast
  split_ifs with closed
  · have even := (interval_closed _).1 closed
    rw [decide_eq_true_iff]
    exact ⟨fun both => ⟨both, fun odd => absurd even odd⟩, And.left⟩
  · have odd := (interval_closed _).not.1 closed
    rw [decide_eq_true_iff]
    exact ⟨fun both => ⟨⟨both.1.le, both.2.le⟩, fun _ => both⟩, fun both => both.2 odd⟩

/-! ### Grids -/

/-- The value of a decimal. -/
def Decimal.value (d : Decimal) : ℚ := d.digits * 10 ^ d.exponent

/-- A multiple of the step of a grid, as a ratio of natural numbers. -/
theorem step_ratio (d : ℕ) (e : ℤ) :
    ((d * (Nat.pow 2 150 * Nat.pow 10 e.toNat) : ℕ) : ℚ) / (Nat.pow 10 (-e).toNat : ℕ) / 2 ^ 150 =
      d * 10 ^ e := by
  have power : (10 : ℚ) ^ e = 10 ^ e.toNat / 10 ^ (-e).toNat := by
    rcases Int.le_total 0 e with nonneg | neg
    · obtain ⟨k, rfl⟩ := Int.eq_ofNat_of_zero_le nonneg
      simp
    · obtain ⟨k, rfl⟩ := Int.exists_eq_neg_ofNat neg
      simp
  rw [power, Nat.pow_eq, Nat.pow_eq, Nat.pow_eq, Nat.cast_mul, Nat.cast_mul, Nat.cast_pow,
    Nat.cast_pow, Nat.cast_pow, Nat.cast_ofNat, Nat.cast_ofNat]
  ring

/-- A point of a grid is in the interval of a magnitude if it is rounded to it. -/
theorem contains_point_iff {m : ℕ} (pos : 0 < m) (finite : m < infinityBits) (d : ℕ) (e : ℤ) :
    (interval m).contains (d * (Nat.pow 2 150 * Nat.pow 10 e.toNat)) (Nat.pow 10 (-e).toNat) =
      true ↔ NearestMagnitude (d * 10 ^ e) m := by
  have denPos : 0 < Nat.pow 10 (-e).toNat := Nat.pow_pos (by decide)
  rw [contains_iff_nearest pos finite denPos, step_ratio]

/-- A positive magnitude is inside its interval. -/
theorem interval_mid {m : ℕ} (pos : 0 < m) :
    (interval m).low < (interval m).mid ∧ (interval m).mid < (interval m).high := by
  obtain ⟨m, rfl⟩ := Nat.exists_eq_succ_of_ne_zero pos.ne'
  have below := units_strictMono (Nat.lt_succ_self m)
  have above := units_strictMono (Nat.lt_succ_self (m + 1))
  rw [Nat.succ_eq_add_one, interval_low, interval_high]
  simp only [interval, Nat.succ_eq_add_one] at below above ⊢
  omega

/-- A point that is between a point of an interval and its middle is in the interval. -/
theorem Interval.contains_of_between {i : Interval} (around : i.low < i.mid ∧ i.mid < i.high)
    {num num' den : ℕ} (denPos : 0 < den) (inside : i.contains num den = true)
    (between : num ≤ num' ∧ num' ≤ i.mid * den ∨ i.mid * den ≤ num' ∧ num' ≤ num) :
    i.contains num' den = true := by
  have low : i.low * den < i.mid * den := Nat.mul_lt_mul_of_pos_right around.1 denPos
  have high : i.mid * den < i.high * den := Nat.mul_lt_mul_of_pos_right around.2 denPos
  unfold contains at inside ⊢
  split_ifs at inside ⊢ <;> rw [decide_eq_true_iff] at inside ⊢ <;> omega

/-- What is found on a grid is one of its points in the interval. If nothing is found, there is
none. -/
theorem Interval.onGrid?_spec {i : Interval} (around : i.low < i.mid ∧ i.mid < i.high) (e : ℤ) :
    match i.onGrid? e with
    | some d => d.exponent = e ∧
      i.contains (d.digits * (Nat.pow 2 150 * Nat.pow 10 e.toNat)) (Nat.pow 10 (-e).toNat) = true
    | none => ∀ d, i.contains (d * (Nat.pow 2 150 * Nat.pow 10 e.toNat)) (Nat.pow 10 (-e).toNat) =
      false := by
  have numPos : 0 < Nat.pow 2 150 * Nat.pow 10 e.toNat :=
    Nat.mul_pos (by decide) (Nat.pow_pos (by decide))
  have denPos : 0 < Nat.pow 10 (-e).toNat := Nat.pow_pos (by decide)
  unfold onGrid?
  generalize Nat.pow 2 150 * Nat.pow 10 e.toNat = num at numPos ⊢
  generalize Nat.pow 10 (-e).toNat = den at denPos ⊢
  simp only
  split_ifs with lowerIn upperIn
  · exact ⟨rfl, (Bool.and_eq_true_iff.1 lowerIn).1⟩
  · exact ⟨rfl, upperIn⟩
  · -- Neither neighbour of the middle is inside. A point inside would have one of them between itself
    -- and the middle.
    have notUpper := Bool.eq_false_iff.2 upperIn
    have notLower : i.contains (i.mid * den / num * num) den = false := by
      simpa [notUpper] using lowerIn
    intro d
    by_contra inside
    have inside := Bool.eq_true_of_not_eq_false inside
    rcases Nat.lt_or_ge (i.mid * den / num) d with more | less
    · have between : i.mid * den ≤ (i.mid * den / num + 1) * num ∧ (i.mid * den / num + 1) *
          num ≤ d * num :=
        ⟨(Nat.lt_mul_of_div_lt (Nat.lt_succ_self _) numPos).le, Nat.mul_le_mul_right _ more⟩
      rw [contains_of_between around denPos inside (.inr between)] at notUpper
      cases notUpper
    · have between : d * num ≤ i.mid * den / num * num ∧ i.mid * den / num * num ≤ i.mid * den :=
        ⟨Nat.mul_le_mul_right _ less, Nat.div_mul_le_self _ _⟩
      rw [contains_of_between around denPos inside (.inl between)] at notLower
      cases notLower

/-- A search finds a point of the interval on a grid, or the middle of the interval, and no coarser
grid of the search has a point of it. -/
theorem Interval.search_spec {i : Interval} (around : i.low < i.mid ∧ i.mid < i.high) {e : ℤ}
    {n : ℕ} (last : e = n - 150) :
    (i.search e n = ⟨i.mid * Nat.pow 5 150, -150⟩ ∨
      i.onGrid? (i.search e n).exponent = some (i.search e n)) ∧
      ∀ e', (i.search e n).exponent < e' → e' ≤ e → i.onGrid? e' = none := by
  induction n generalizing e with
  | zero => exact ⟨.inl rfl, fun e' finer le => absurd (finer.trans_le le) (by simp [last, search])⟩
  -- By induction on the number of grids that are left, from the coarsest one on.
  | succ n ih =>
    rw [search]
    have found := onGrid?_spec around e
    cases here : i.onGrid? e with
    | some d =>
      rw [here] at found
      rw [Option.getD_some, found.1]
      exact ⟨.inr here, fun e' finer le => absurd (finer.trans_le le) (lt_irrefl e)⟩
    | none =>
      obtain ⟨result, coarser⟩ := @ih (e - 1) (by omega)
      refine ⟨result, fun e' finer le => ?_⟩
      rcases le.lt_or_eq with less | rfl
      · exact coarser e' finer (by omega)
      · exact here

/-! ### The shortest decimal -/

section Shortest

variable {m : ℕ} (pos : 0 < m) (finite : m < infinityBits)

include pos

theorem ne_zero_of_nearest {d : ℕ} {e : ℤ} (h : NearestMagnitude (d * 10 ^ e) m) : d ≠ 0 := by
  rintro rfl
  have zero : ((0 : ℕ) : ℚ) * 10 ^ e = 0 := by simp
  rw [zero] at h
  exact pos.ne (h.unique (nearest_zero (le_refl 0) (by positivity))).symm

include finite

/-- A number is what its shortest decimal is rounded to. -/
theorem shortest_nearest : NearestMagnitude (shortest m).value m := by
  obtain ⟨found | found, -⟩ := Interval.search_spec (interval_mid pos) (e := 39) (n := 189) rfl
  · -- No grid has a point: what is found is the middle, which is the magnitude itself.
    have inside : (interval m).contains (interval m).mid 1 = true := by
      obtain ⟨low, high⟩ := interval_mid pos
      unfold Interval.contains
      split_ifs <;> rw [decide_eq_true_iff] <;> omega
    have value : (shortest m).value = ((interval m).mid : ℕ) / (1 : ℕ) / 2 ^ 150 := by
      have power : ((Nat.pow 5 150 : ℕ) : ℚ) * 10 ^ (-150 : ℤ) = 1 / 2 ^ 150 := by norm_num
      rw [shortest, found, Decimal.value, Nat.cast_mul, mul_assoc, power, Nat.cast_one, div_one,
        mul_one_div]
    rw [value]
    exact (contains_iff_nearest pos finite Nat.one_pos).1 inside
  · have point := Interval.onGrid?_spec (interval_mid pos) (shortest m).exponent
    rw [shortest, found] at point
    exact (contains_point_iff pos finite _ _).1 point.2

/-- A decimal that is rounded to a number has no coarser step than the shortest one. -/
theorem le_exponent_of_nearest {d : ℕ} {e : ℤ} (h : NearestMagnitude (d * 10 ^ e) m) :
    e ≤ (shortest m).exponent := by
  have some := ne_zero_of_nearest pos h
  by_contra! coarser
  rcases le_or_gt e 39 with le | large
  · -- A coarser grid of the search has no point in the interval.
    have none := (Interval.search_spec (interval_mid pos) (e := 39) (n := 189) rfl).2 e coarser le
    have nothing := Interval.onGrid?_spec (interval_mid pos) e
    rw [none] at nothing
    rw [← contains_point_iff pos finite, nothing d] at h
    cases h
  · -- A grid above all grids of the search has no point below infinity.
    have infinite : (units infinityBits : ℚ) / 2 ^ 149 < d * 10 ^ e := by
      calc (units infinityBits : ℚ) / 2 ^ 149 < 10 ^ (39 : ℤ) := by
            rw [show units infinityBits = 2 ^ 128 * 2 ^ 149 by decide]
            norm_num
        _ ≤ 10 ^ e := zpow_le_zpow_right₀ (by norm_num) large.le
        _ ≤ d * 10 ^ e :=
          le_mul_of_one_le_left (by positivity) (by exact_mod_cast Nat.one_le_iff_ne_zero.2 some)
    exact finite.ne (h.unique (nearest_infinity infinite))

/-- The values that are rounded to a number have no gaps. -/
theorem NearestMagnitude.between {q x r : ℚ} (hq : NearestMagnitude q m) (hr : NearestMagnitude r m)
    (low : q ≤ x) (high : x ≤ r) : NearestMagnitude x m := by
  obtain ⟨m, rfl⟩ := Nat.exists_eq_succ_of_ne_zero pos.ne'
  obtain ⟨⟨above, -⟩, strictAbove⟩ := (nearest_iff_between finite).1 hq
  obtain ⟨⟨-, below⟩, strictBelow⟩ := (nearest_iff_between finite).1 hr
  have low : q * 2 ^ 150 ≤ x * 2 ^ 150 := mul_le_mul_of_nonneg_right low (by positivity)
  have high : x * 2 ^ 150 ≤ r * 2 ^ 150 := mul_le_mul_of_nonneg_right high (by positivity)
  exact (nearest_iff_between finite).2 ⟨⟨above.trans low, high.trans below⟩,
    fun odd => ⟨(strictAbove odd).1.trans_le low, high.trans_lt (strictBelow odd).2⟩⟩

/-- A decimal that is rounded to a number has at least as many digits as the shortest one. With
fewer digits it would be below a power of ten that is not above the shortest one and has a coarser
step. -/
theorem digitCount_shortest_le {d : ℕ} {e : ℤ} (h : NearestMagnitude (d * 10 ^ e) m) :
    digitCount (shortest m).digits ≤ digitCount d := by
  have own := shortest_nearest pos finite
  have coarsest {d : ℕ} {e : ℤ} (h : NearestMagnitude (d * 10 ^ e) m) :=
    le_exponent_of_nearest pos finite h
  rw [Decimal.value] at own
  generalize (shortest m).digits = n, (shortest m).exponent = i at own coarsest ⊢
  by_contra! fewer
  have step : e ≤ i := coarsest h
  obtain ⟨low, -⟩ := digitCount_spec (ne_zero_of_nearest pos own)
  obtain ⟨-, high⟩ := digitCount_spec (ne_zero_of_nearest pos h)
  -- The power of ten with as many digits as the shortest decimal is between both decimals.
  have power : ((1 : ℕ) : ℚ) * 10 ^ ((digitCount n - 1 : ℕ) + i) =
      (10 ^ (digitCount n - 1) : ℕ) * 10 ^ i := by
    rw [zpow_add₀ (by norm_num), zpow_natCast]
    push_cast
    ring
  have above : (d : ℚ) * 10 ^ e ≤ (1 : ℕ) * 10 ^ ((digitCount n - 1 : ℕ) + i) := by
    have atMost : (d : ℚ) ≤ (10 ^ (digitCount n - 1) : ℕ) := by
      exact_mod_cast high.le.trans (Nat.pow_le_pow_right (by decide) (by omega))
    rw [power]
    gcongr
    norm_num
  have below : ((1 : ℕ) : ℚ) * 10 ^ ((digitCount n - 1 : ℕ) + i) ≤ n * 10 ^ i := by
    have atLeast : ((10 ^ (digitCount n - 1) : ℕ) : ℚ) ≤ n := by exact_mod_cast low
    rw [power]
    gcongr
  have le := coarsest (NearestMagnitude.between pos finite h own above below)
  -- So the shortest one has one digit, and the other one has none.
  have none : digitCount d = 0 := by omega
  rw [none] at high
  exact ne_zero_of_nearest pos h (by omega)

end Shortest

end Binary32

/-! ### Digits -/

@[simp] theorem digitsValue_decimalDigits (n : ℕ) : digitsValue (decimalDigits n) = n :=
  Nat.ofDigitChars_ten_toDigits

theorem decimalDigits_ne_nil (n : ℕ) : decimalDigits n ≠ [] := Nat.toDigits_ne_nil

theorem isDigit_of_mem_decimalDigits {n : ℕ} {c : Char} (mem : c ∈ decimalDigits n) :
    c.isDigit = true :=
  Nat.isDigit_of_mem_toDigits (by decide) (by decide) mem

theorem digitsValue_append (as bs : List Char) :
    digitsValue (as ++ bs) = digitsValue as * 10 ^ bs.length + digitsValue bs := by
  induction bs using List.reverseRecOn with
  | nil => simp
  | append_singleton bs b ih =>
    rw [← List.append_assoc, digitsValue_append_singleton, ih, digitsValue_append_singleton,
      List.length_append, List.length_singleton, pow_succ]
    ring

@[simp] theorem digitsValue_replicate_zero (k : ℕ) : digitsValue (List.replicate k '0') = 0 := by
  induction k with
  | zero => rfl
  | succ k ih =>
    rw [List.replicate_succ', digitsValue_append_singleton, ih]
    rfl

/-- A number with places behind the point has as many digits there, and all its digits are those of
the number without the point. -/
theorem toList_pointedText (n : ℕ) {places : ℕ} (some : 0 < places) :
    ∃ whole fraction, (pointedText n places).toList = whole ++ '.' :: fraction ∧ whole ≠ [] ∧
      fraction.length = places ∧ (∀ c ∈ whole ++ fraction, c.isDigit = true) ∧
      digitsValue (whole ++ fraction) = n := by
  -- The digits behind the point are few enough to be filled up with zeros.
  have fits : (decimalDigits (n % 10 ^ places)).length ≤ places :=
    (Nat.length_toDigits_le_iff (by decide) some).2 (Nat.mod_lt _ (by positivity))
  refine ⟨decimalDigits (n / 10 ^ places),
    List.replicate (places - (decimalDigits (n % 10 ^ places)).length) '0' ++
      decimalDigits (n % 10 ^ places), ?_, decimalDigits_ne_nil _, ?_, ?_, ?_⟩
  · rw [pointedText, if_neg some.ne']
    exact String.toList_ofList
  · rw [List.length_append, List.length_replicate]
    omega
  · refine List.forall_mem_append.2 ⟨fun c => isDigit_of_mem_decimalDigits,
      List.forall_mem_append.2 ⟨fun c mem => ?_, fun c => isDigit_of_mem_decimalDigits⟩⟩
    rw [List.eq_of_mem_replicate mem]
    rfl
  · rw [digitsValue_append, digitsValue_append _ (decimalDigits _), digitsValue_replicate_zero,
      digitsValue_decimalDigits, digitsValue_decimalDigits, List.length_append,
      List.length_replicate, Nat.sub_add_cancel fits, Nat.zero_mul, Nat.zero_add]
    exact Nat.div_add_mod' n _

namespace Binary32

/-- The value of a decimal with digits before and behind a point, and nothing else. -/
inductive PointedDenotes : List Char → ℚ → Prop
  | intro {whole fraction : List Char} (someWhole : whole ≠ []) (someFraction : fraction ≠ [])
      (all : ∀ c ∈ whole ++ fraction, c.isDigit = true) :
      PointedDenotes (whole ++ '.' :: fraction)
        (digitsValue (whole ++ fraction) / 10 ^ fraction.length)

theorem PointedDenotes.decimalDenotes {text : List Char} {q : ℚ} (h : PointedDenotes text q) :
    DecimalDenotes text q := by
  obtain @⟨whole, fraction, someWhole, -, all⟩ := h
  obtain ⟨allWhole, allFraction⟩ := List.forall_mem_append.1 all
  have denotes := DecimalDenotes.intro (by simp [someWhole]) allWhole allFraction (.inl rfl) .absent
  rwa [zero_sub, zpow_neg, zpow_natCast, ← div_eq_mul_inv, List.append_nil] at denotes

/-- The text of a decimal is written with a point and has the value of the decimal. -/
theorem Decimal.text_denotes (d : Decimal) : PointedDenotes d.text.toList d.value := by
  unfold text value
  split_ifs with nonneg
  · obtain ⟨digits, exponent⟩ := d
    obtain ⟨k, rfl⟩ := Int.eq_ofNat_of_zero_le nonneg
    -- A whole number is written with its zeros, and with one more behind the point.
    have all : ∀ c ∈ decimalDigits (digits * 10 ^ k) ++ ['0'], c.isDigit = true :=
      List.forall_mem_append.2 ⟨fun c => isDigit_of_mem_decimalDigits, by simp [Char.isDigit]⟩
    have denotes := PointedDenotes.intro (decimalDigits_ne_nil _) (by simp) all
    have text : (pointedText (digits * Nat.pow 10 k) 0 ++ ".0").toList =
        decimalDigits (digits * 10 ^ k) ++ '.' :: ['0'] := by
      rw [pointedText, if_pos rfl, String.toList_append, String.toList_ofList]
      rfl
    have value : (digitsValue (decimalDigits (digits * 10 ^ k) ++ ['0']) : ℚ) / 10 ^ ['0'].length =
        digits * 10 ^ (k : ℤ) := by
      rw [digitsValue_append_singleton, digitsValue_decimalDigits, show digitValue '0' = 0 from rfl,
        zpow_natCast, List.length_singleton]
      push_cast
      ring
    rw [value] at denotes
    exact text ▸ denotes
  · obtain ⟨digits, exponent⟩ := d
    -- Otherwise the point goes as many places to the left as the exponent says.
    obtain ⟨k, rfl⟩ : ∃ k : ℕ, exponent = -(k : ℤ) := ⟨(-exponent).toNat, by simp at nonneg; omega⟩
    have some : 0 < k := by simpa [Nat.pos_iff_ne_zero] using nonneg
    obtain ⟨whole, fraction, text, someWhole, places, all, value⟩ := toList_pointedText digits some
    have denotes := PointedDenotes.intro someWhole (List.ne_nil_of_length_pos (places ▸ some)) all
    rw [value, places, div_eq_mul_inv, ← zpow_natCast, ← zpow_neg, ← text] at denotes
    simpa using denotes

/-! ### Signs -/

/-- A signed decimal is read as the magnitude that is nearest to its value, with the sign. -/
theorem read?_signed {text : List Char} {q : ℚ} {m : ℕ} (denotes : DecimalDenotes text q)
    (nearest : NearestMagnitude q m) (negative : Bool) :
    read? (String.ofList (if negative then '-' :: text else text)) =
      some (ofMagnitude negative m) := by
  obtain ⟨c, cs, rfl, start⟩ := denotes.head
  obtain ⟨n, read, nearest'⟩ := readMagnitude?_nearest denotes
  obtain rfl := nearest.unique nearest'
  have split : splitSign (if negative then '-' :: c :: cs else c :: cs) = (negative, c :: cs) := by
    cases negative
    · exact splitSign_of_isDigit start
    · rfl
  rw [read?, String.toList_ofList, split]
  simp only [named?_of_isDigit start, read]
  rfl

/-- A number consists of its sign and its magnitude. -/
theorem ofMagnitude_magnitude (x : Binary32) : ofMagnitude x.isNegative x.magnitude = x := by
  obtain ⟨bits⟩ := x
  have bound := bits.toNat_lt
  simp only [ofMagnitude, isNegative, magnitude, Nat.pow_eq, decide_eq_true_eq, mk.injEq]
  apply UInt32.toNat.inj
  rw [UInt32.toNat_ofNat']
  split <;> omega

/-- A finite number is written as its sign and its magnitude. -/
theorem toList_textWith (finite : ℕ → String) {x : Binary32} (h : x.isFinite = true) :
    (x.textWith finite).toList =
      if x.isNegative then '-' :: (finite x.magnitude).toList else (finite x.magnitude).toList := by
  have isNumber : x.isNaN = false := by
    rw [isFinite, decide_eq_true_iff] at h
    exact decide_eq_false (by omega)
  rw [textWith, isNumber, if_neg (by decide), h, if_pos rfl]
  dsimp only
  split_ifs
  · rw [String.toList_append]
    rfl
  · rfl

/-- A finite number is written as its sign and the shortest decimal of its magnitude. -/
theorem toList_literal {x : Binary32} (finite : x.isFinite = true) :
    x.literal.toList =
      if x.isNegative then '-' ::
        (if x.magnitude = 0 then "0.0" else (shortest x.magnitude).text).toList
      else (if x.magnitude = 0 then "0.0" else (shortest x.magnitude).text).toList :=
  toList_textWith _ finite

/-- The decimal that a magnitude is written with: its text, its value and its digits. -/
theorem exists_decimal {m : ℕ} (finite : m < infinityBits) :
    ∃ d : Decimal, PointedDenotes (if m = 0 then "0.0" else (shortest m).text).toList d.value ∧
      NearestMagnitude d.value m ∧
      ∀ (digits : ℕ) (e : ℤ), NearestMagnitude (digits * 10 ^ e) m →
        digitCount d.digits ≤ digitCount digits := by
  by_cases zero : m = 0
  · subst zero
    refine ⟨⟨0, 0⟩, ?_, ?_, fun digits e _ => ?_⟩
    · have denotes := Decimal.text_denotes ⟨0, 0⟩
      exact denotes
    · have value : (⟨0, 0⟩ : Decimal).value = 0 := by simp [Decimal.value]
      rw [value]
      exact nearest_zero (le_refl 0) (by positivity)
    · have none : digitCount 0 = 0 := by rw [digitCount, if_pos rfl]
      exact none.le.trans (Nat.zero_le _)
  · rw [if_neg zero]
    have pos := Nat.pos_of_ne_zero zero
    exact ⟨shortest m, Decimal.text_denotes _, shortest_nearest pos finite,
      fun _ _ => digitCount_shortest_le pos finite⟩

/-- A constant is read as the number that it was written for. -/
theorem read?_literal {x : Binary32} (finite : x.isFinite = true) : read? x.literal = some x := by
  obtain ⟨d, denotes, nearest, -⟩ := exists_decimal (of_decide_eq_true finite)
  have read := read?_signed denotes.decimalDenotes nearest x.isNegative
  rwa [← toList_literal finite, String.ofList_toList, ofMagnitude_magnitude] at read

/-- A constant has a point, and apart from it digits and perhaps a minus. -/
theorem literal_characters {x : Binary32} (finite : x.isFinite = true) :
    '.' ∈ x.literal.toList ∧ ∀ c ∈ x.literal.toList, c.isDigit = true ∨ c = '.' ∨ c = '-' := by
  obtain ⟨d, denotes, -⟩ := exists_decimal (of_decide_eq_true finite)
  rw [toList_literal finite]
  generalize (if x.magnitude = 0 then "0.0" else (shortest x.magnitude).text).toList =
    text at denotes
  generalize d.value = q at denotes
  obtain @⟨whole, fraction, -, -, all⟩ := denotes
  have pointed : ∀ c ∈ whole ++ '.' :: fraction, c.isDigit = true ∨ c = '.' ∨ c = '-' := by
    intro c mem
    rcases List.mem_append.1 mem with mem | mem
    · exact .inl (all c (List.mem_append_left _ mem))
    · rcases List.mem_cons.1 mem with rfl | mem
      · exact .inr (.inl rfl)
      · exact .inl (all c (List.mem_append_right _ mem))
  split
  · exact ⟨by simp, List.forall_mem_cons.2 ⟨.inr (.inr rfl), pointed⟩⟩
  · exact ⟨by simp, pointed⟩

/-- A finite number survives being written as a constant. Its text is an optional minus, digits, a
point and digits. The value of this decimal is rounded to the magnitude of the number, and to no
other one, so reading the text gives the number back, with its sign. No decimal with fewer digits is
rounded to it. -/
theorem literal_reads_back {x : Binary32} (finite : x.isFinite = true) :
    ∃ (text : List Char) (d : Decimal),
      x.literal.toList = (if x.isNegative then '-' :: text else text) ∧
      PointedDenotes text d.value ∧
      (∀ y, (∃ m, NearestMagnitude d.value m ∧ y = ofMagnitude x.isNegative m) ↔ y = x) ∧
      read? x.literal = some x ∧
      ∀ (digits : ℕ) (e : ℤ), NearestMagnitude (digits * 10 ^ e) x.magnitude →
        digitCount d.digits ≤ digitCount digits := by
  obtain ⟨d, denotes, nearest, fewest⟩ := exists_decimal (of_decide_eq_true finite)
  have text := toList_literal finite
  refine ⟨_, d, text, denotes, fun y => ⟨?_, ?_⟩, ?_, fewest⟩
  · rintro ⟨m, nearest', rfl⟩
    rw [nearest'.unique nearest, ofMagnitude_magnitude]
  · rintro rfl
    exact ⟨y.magnitude, nearest, (ofMagnitude_magnitude y).symm⟩
  · exact read?_literal finite

/-- The negative number that is nearest to zero. -/
theorem literal_reads_back_tiny :
    (⟨0x80000001⟩ : Binary32).isFinite = true ∧
      ∃ (text : List Char) (d : Decimal), (⟨0x80000001⟩ : Binary32).literal.toList = '-' :: text ∧
        PointedDenotes text d.value ∧
        (∀ y, (∃ m, NearestMagnitude d.value m ∧ y = ofMagnitude true m) ↔ y = ⟨0x80000001⟩) ∧
        read? (⟨0x80000001⟩ : Binary32).literal = some ⟨0x80000001⟩ := by
  have finite : (⟨0x80000001⟩ : Binary32).isFinite = true := by decide
  have negative : (⟨0x80000001⟩ : Binary32).isNegative = true := by decide
  obtain ⟨text, d, written, denotes, rounded, read, -⟩ := literal_reads_back finite
  rw [negative, if_pos rfl] at written
  rw [negative] at rounded
  exact ⟨finite, text, d, written, denotes, rounded, read⟩

/-- The least normal number has eight digits. The numbers beside it are equally far away from it. -/
example :
    (⟨0x00800000⟩ : Binary32).literal = "0.000000000000000000000000000000000000011754944" :=
  by decide +kernel

end Binary32

end MiniGo
