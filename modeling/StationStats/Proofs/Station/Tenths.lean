import Mathlib.Algebra.Order.Ring.Int
import StationStats.Station.Tenths

/-!
The mean of several readings as the integer nearest to the quotient of their sum and their number,
and values in tenths in the usual decimal form.
-/

namespace StationStats.Tenths

/-- The integer is nearest to the quotient of sum and count; of two such integers it is the
one farther from zero. -/
structure IsNearest (sum count mean : Int) : Prop where
  near : 2 * (sum - count * mean).natAbs ≤ count
  away : 2 * (sum - count * mean).natAbs = count → sum.natAbs < (count * mean).natAbs

variable {sum count : Int}

/-- Twice the magnitude plus the count, over twice the count, is what rounding half up gives. -/
theorem isNearest_roundedMean (hCount : 0 < count) :
    IsNearest sum count (roundedMean sum count) := by
  have hQuotient :
      (2 * (sum.natAbs : Int) + count).tdiv (2 * count) =
        (2 * (sum.natAbs : Int) + count) / (2 * count) :=
    Int.tdiv_eq_ediv_of_nonneg (by omega)
  rw [roundedMean, hQuotient]
  have hFloor := Int.mul_ediv_add_emod (2 * (sum.natAbs : Int) + count) (2 * count)
  have hRest := Int.emod_lt_of_pos (2 * (sum.natAbs : Int) + count) (show 0 < 2 * count by omega)
  have hRest' := Int.emod_nonneg (2 * (sum.natAbs : Int) + count) (show 2 * count ≠ 0 by omega)
  generalize (2 * (sum.natAbs : Int) + count) / (2 * count) = magnitude at *
  generalize (2 * (sum.natAbs : Int) + count) % (2 * count) = rest at *
  rw [Int.mul_assoc] at hFloor
  by_cases hNegative : sum < 0
  · simp only [if_pos hNegative]
    constructor
    · rw [Int.mul_neg]
      omega
    · rw [Int.mul_neg]
      omega
  · simp only [if_neg hNegative]
    constructor <;> omega

/-- A larger sum does not have a smaller mean. -/
theorem IsNearest.mono (hCount : 0 < count) {larger first second : Int}
    (hFirst : IsNearest sum count first) (hSecond : IsNearest larger count second)
    (hLe : sum ≤ larger) : first ≤ second := by
  by_contra hNotLe
  have hStep : count * second + count ≤ count * first := by
    rw [← mul_add_one]
    exact Int.mul_le_mul_of_nonneg_left (not_le.mp hNotLe) hCount.le
  -- The sums can only be the same, half way between the two means, and then the ties
  -- go to different sides.
  have hSide : 0 ≤ count * second ∨ count * second + count ≤ 0 := by
    rcases lt_or_ge second 0 with hNegative | hNonneg
    · right
      rw [← mul_add_one]
      exact Int.mul_nonpos_of_nonneg_of_nonpos hCount.le hNegative
    · exact Or.inl (Int.mul_nonneg hCount.le hNonneg)
  obtain ⟨hFirstNear, hFirstAway⟩ := hFirst
  obtain ⟨hSecondNear, hSecondAway⟩ := hSecond
  omega

/-- There is one such integer only. -/
theorem IsNearest.unique (hCount : 0 < count) {first second : Int}
    (hFirst : IsNearest sum count first) (hSecond : IsNearest sum count second) : first = second :=
  le_antisymm (hFirst.mono hCount hSecond le_rfl) (hSecond.mono hCount hFirst le_rfl)

/-- Readings that are all the same have that mean. -/
theorem isNearest_mul (hCount : 0 < count) (value : Int) :
    IsNearest (count * value) count value := by
  constructor <;> omega

/-- The negated sum has the negated mean. -/
theorem IsNearest.neg {mean : Int} (h : IsNearest sum count mean) :
    IsNearest (-sum) count (-mean) := by
  obtain ⟨hNear, hAway⟩ := h
  constructor <;>
    · rw [Int.mul_neg]
      omega

/-- As many times the sum over as many times the count has the same mean. -/
theorem IsNearest.scale {mean k : Int} (hScale : 0 < k) (h : IsNearest sum count mean) :
    IsNearest (k * sum) (k * count) mean := by
  obtain ⟨hNear, hAway⟩ := h
  have hDistance :
      (2 * ((k * sum - k * count * mean).natAbs : Int)) =
        k * (2 * (sum - count * mean).natAbs) := by
    rw [Int.mul_assoc, ← Int.mul_sub, Int.natAbs_mul, Int.natCast_mul,
      Int.natAbs_of_nonneg hScale.le, Int.mul_left_comm]
  constructor
  · rw [hDistance]
    exact Int.mul_le_mul_of_nonneg_left hNear hScale.le
  · intro hTie
    rw [hDistance] at hTie
    have hFar := hAway (Int.eq_of_mul_eq_mul_left hScale.ne' hTie)
    rw [Int.mul_assoc, Int.natAbs_mul, Int.natAbs_mul k]
    exact Nat.mul_lt_mul_of_pos_left hFar (Int.natAbs_pos.mpr hScale.ne')

/-- The mean is had if there is a reading and the intermediate values fit. -/
theorem mean_eq (hCount : 0 < count) (hFits : 2 * (sum.natAbs : Int) + count < 2 ^ 63) :
    mean sum count = .ok (roundedMean sum count) := by
  have hRange : ¬ (¬ Fits UInt64.size (2 * (sum.natAbs : Int)) ∨
      ¬ Fits UInt64.size (2 * (sum.natAbs : Int) + count)) := by
    simp only [Fits, UInt64.size]
    omega
  unfold mean
  rw [if_neg hRange, if_neg hCount.ne']

/-- No integer is nearer to the quotient. -/
theorem IsNearest.distance_le {mean : Int} (h : IsNearest sum count mean) (other : Int) :
    (sum - count * mean).natAbs ≤ (sum - count * other).natAbs := by
  have hNear := h.near
  have hCount : 0 ≤ count := by omega
  rcases lt_trichotomy other mean with hBelow | rfl | hAbove
  · have hStep : count * other + count ≤ count * mean := by
      rw [← mul_add_one]
      exact Int.mul_le_mul_of_nonneg_left hBelow hCount
    omega
  · exact le_rfl
  · have hStep : count * mean + count ≤ count * other := by
      rw [← mul_add_one]
      exact Int.mul_le_mul_of_nonneg_left hAbove hCount
    omega

/-- The mean is the one integer that is nearest to the quotient of sum and count, ties away from
zero. So it changes its sign with the sum, stays the same if both are multiplied, and does not
fall if the sum grows. -/
theorem mean_isNearest (hCount : 1 ≤ count) (hFits : 2 * (sum.natAbs : Int) + count < 2 ^ 63) :
    ∃ m, mean sum count = .ok m ∧ IsNearest sum count m ∧
      (∀ other, IsNearest sum count other → other = m) ∧
      (∀ other, (sum - count * m).natAbs ≤ (sum - count * other).natAbs) ∧
      mean (-sum) count = .ok (-m) ∧
      (∀ k, 1 ≤ k → 2 * ((k * sum).natAbs : Int) + k * count < 2 ^ 63 →
        mean (k * sum) (k * count) = .ok m) ∧
      ∀ larger, sum ≤ larger → 2 * (larger.natAbs : Int) + count < 2 ^ 63 →
        ∃ n, mean larger count = .ok n ∧ m ≤ n := by
  have hNearest : IsNearest sum count (roundedMean sum count) := isNearest_roundedMean hCount
  refine ⟨roundedMean sum count, mean_eq hCount hFits, hNearest, ?_, hNearest.distance_le, ?_,
    ?_, ?_⟩
  · intro other hOther
    exact hOther.unique hCount hNearest
  · have hNegated : roundedMean (-sum) count = -roundedMean sum count :=
      (isNearest_roundedMean hCount).unique hCount hNearest.neg
    rw [mean_eq hCount (by rwa [Int.natAbs_neg]), hNegated]
  · intro k hFactor hScaledFits
    have hScaledCount : 0 < k * count := Int.mul_pos hFactor hCount
    have hScaled : roundedMean (k * sum) (k * count) = roundedMean sum count :=
      (isNearest_roundedMean hScaledCount).unique hScaledCount (hNearest.scale hFactor)
    rw [mean_eq hScaledCount hScaledFits, hScaled]
  · intro larger hLe hLargerFits
    exact ⟨roundedMean larger count, mean_eq hCount hLargerFits,
      hNearest.mono hCount (isNearest_roundedMean hCount) hLe⟩

/-- Two readings whose mean lies half way between two tenths: it goes away from zero on both sides,
and with three times as many readings it goes the same way. -/
theorem mean_isNearest_of_tie :
    mean (-25) 2 = .ok (-13) ∧ mean 25 2 = .ok 13 ∧ mean (3 * -25) (3 * 2) = .ok (-13) := by
  obtain ⟨m, hMean, -, hUnique, -, hNegated, hScaled, -⟩ :=
    mean_isNearest (show 1 ≤ (2 : Int) by decide)
      (show 2 * ((-25 : Int).natAbs : Int) + 2 < 2 ^ 63 by decide)
  obtain rfl : -13 = m := hUnique (-13) ⟨by decide, by decide⟩
  exact ⟨hMean, hNegated, hScaled 3 (by decide) (by decide)⟩

/-! ### Decimal form -/

/-- A number of tenths in decimal form. -/
def decimal (n : Int) : String :=
  (if n < 0 then "-" else "") ++ toString (n.natAbs / 10) ++ "." ++ toString (n.natAbs % 10)

theorem digit_eq {n : Nat} (h : n < 10) : Decimal.digit n = n.digitChar := by
  rw [Decimal.digit, ← Nat.toNat_digitChar_of_lt_ten h, Char.ofNat_toNat]

theorem digits_eq (n : Nat) : Decimal.digits n = (toString n).toList := by
  rw [Nat.toString_eq_repr, Nat.toList_repr]
  induction n using Nat.strongRecOn with
  | ind n ih =>
      rw [Decimal.digits]
      by_cases hOne : n < 10
      · rw [if_pos hOne, Nat.toDigits_of_lt_base hOne, digit_eq hOne]
      · rw [if_neg hOne, Nat.toDigits_of_base_le (by decide) (Nat.not_lt.mp hOne), ih _ (by omega),
          digit_eq (by omega)]

/-- The characters of a value are its decimal form. -/
theorem chars_eq (n : Int) : chars n = (decimal n).toList := by
  have hTenths : (toString (n.natAbs % 10)).toList = [Decimal.digit (n.natAbs % 10)] := by
    rw [← digits_eq, Decimal.digits, if_pos (by omega)]
  simp only [chars, decimal, String.toList_append, hTenths, digits_eq]
  split <;> simp

end StationStats.Tenths
