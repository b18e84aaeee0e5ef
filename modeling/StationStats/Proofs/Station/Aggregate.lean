import Mathlib.Algebra.BigOperators.Group.List.Basic
import Mathlib.Algebra.Order.BigOperators.Group.List
import StationStats.Proofs.Station.Tenths
import StationStats.Station.Aggregate

/-!
What an aggregate says about the readings behind it, and the bounds that follow from the range of a
reading: as long as the count fits its field, so does the sum.
-/

namespace StationStats.Aggregate

theorem min?_append {first second : List Int} {a b : Int} (ha : first.min? = some a)
    (hb : second.min? = some b) : (first ++ second).min? = some (min a b) := by
  rw [List.min?_eq_some_iff] at ha hb ⊢
  constructor
  · rcases le_total a b with hLe | hLe
    · rw [min_eq_left hLe]
      exact List.mem_append_left second ha.1
    · rw [min_eq_right hLe]
      exact List.mem_append_right first hb.1
  · intro c hc
    rcases List.mem_append.mp hc with hc | hc
    · exact (min_le_left a b).trans (ha.2 c hc)
    · exact (min_le_right a b).trans (hb.2 c hc)

theorem max?_append {first second : List Int} {a b : Int} (ha : first.max? = some a)
    (hb : second.max? = some b) : (first ++ second).max? = some (max a b) := by
  rw [List.max?_eq_some_iff] at ha hb ⊢
  constructor
  · rcases le_total a b with hLe | hLe
    · rw [max_eq_right hLe]
      exact List.mem_append_right first hb.1
    · rw [max_eq_left hLe]
      exact List.mem_append_left second ha.1
  · intro c hc
    rcases List.mem_append.mp hc with hc | hc
    · exact (ha.2 c hc).trans (le_max_left a b)
    · exact (hb.2 c hc).trans (le_max_right a b)

/-- The aggregate sums up these readings. -/
structure Summarises (a : Aggregate) (readings : List Int) : Prop where
  sum : a.sum = readings.sum
  count : a.count = readings.length
  least : readings.min? = some a.least
  greatest : readings.max? = some a.greatest

theorem join_comm (a b : Aggregate) : a.join b = b.join a := by
  simp only [join, Int.add_comm a.sum, Int.add_comm a.count, Int.min_comm a.least,
    Int.max_comm a.greatest]

theorem join_assoc (a b c : Aggregate) : (a.join b).join c = a.join (b.join c) := by
  simp only [join, Int.add_assoc, Int.min_assoc, Int.max_assoc]

theorem summarises_single (value : Int) : (single value).Summarises [value] :=
  ⟨by simp [single], rfl, rfl, rfl⟩

/-- Joined aggregates sum up the readings of both. -/
theorem Summarises.join {a b : Aggregate} {first second : List Int} (hFirst : a.Summarises first)
    (hSecond : b.Summarises second) : (a.join b).Summarises (first ++ second) := by
  refine ⟨?_, ?_, min?_append hFirst.least hSecond.least,
    max?_append hFirst.greatest hSecond.greatest⟩
  · rw [List.sum_append, ← hFirst.sum, ← hSecond.sum]
    rfl
  · rw [List.length_append, Int.natCast_add, ← hFirst.count, ← hSecond.count]
    rfl

/-- Readings determine the aggregate that sums them up. -/
theorem Summarises.unique {a b : Aggregate} {readings : List Int} (ha : a.Summarises readings)
    (hb : b.Summarises readings) : a = b := by
  have hLeast := Option.some_inj.mp (ha.least.symm.trans hb.least)
  have hGreatest := Option.some_inj.mp (ha.greatest.symm.trans hb.greatest)
  cases a
  cases b
  simp only [mk.injEq]
  exact ⟨ha.sum.trans hb.sum.symm, ha.count.trans hb.count.symm, hLeast, hGreatest⟩

/-- The order of the readings does not matter. -/
theorem Summarises.of_perm {a : Aggregate} {first second : List Int} (h : a.Summarises first)
    (hPerm : first.Perm second) : a.Summarises second where
  sum := h.sum.trans hPerm.sum_eq
  count := h.count.trans (congrArg Nat.cast hPerm.length_eq)
  least := by
    obtain ⟨hMem, hLe⟩ := List.min?_eq_some_iff.mp h.least
    exact List.min?_eq_some_iff.mpr
      ⟨hPerm.mem_iff.mp hMem, fun b hb => hLe b (hPerm.mem_iff.mpr hb)⟩
  greatest := by
    obtain ⟨hMem, hLe⟩ := List.max?_eq_some_iff.mp h.greatest
    exact List.max?_eq_some_iff.mpr
      ⟨hPerm.mem_iff.mp hMem, fun b hb => hLe b (hPerm.mem_iff.mpr hb)⟩

theorem Summarises.count_pos {a : Aggregate} {readings : List Int} (h : a.Summarises readings) :
    0 < a.count := by
  have hMem := (List.min?_eq_some_iff.mp h.least).1
  rw [h.count, Int.natCast_pos]
  exact List.length_pos_of_mem hMem

/-- The least and the greatest value are readings, and every reading lies between them. -/
theorem Summarises.between {a : Aggregate} {readings : List Int} (h : a.Summarises readings) :
    a.least ∈ readings ∧ a.greatest ∈ readings ∧ ∀ value ∈ readings, a.least ≤ value ∧
      value ≤ a.greatest := by
  obtain ⟨hLeast, hBelow⟩ := List.min?_eq_some_iff.mp h.least
  obtain ⟨hGreatest, hAbove⟩ := List.max?_eq_some_iff.mp h.greatest
  exact ⟨hLeast, hGreatest, fun value hValue => ⟨hBelow value hValue, hAbove value hValue⟩⟩

/-- The sum lies between as many of the least and as many of the greatest value
as there are readings. -/
theorem Summarises.sum_between {a : Aggregate} {readings : List Int} (h : a.Summarises readings) :
    a.count * a.least ≤ a.sum ∧ a.sum ≤ a.count * a.greatest := by
  obtain ⟨-, -, hBetween⟩ := h.between
  rw [h.sum, h.count, ← nsmul_eq_mul, ← nsmul_eq_mul]
  exact ⟨List.card_nsmul_le_sum readings a.least fun value hValue => (hBetween value hValue).1,
    List.sum_le_card_nsmul readings a.greatest fun value hValue => (hBetween value hValue).2⟩

/-- The rounded mean lies between the least and the greatest reading: it does not fall when the sum
grows, and each of the two is the mean of readings that are all the same. -/
theorem Summarises.roundedMean_between {a : Aggregate} {readings : List Int}
    (h : a.Summarises readings) :
    a.least ≤ Tenths.roundedMean a.sum a.count ∧ Tenths.roundedMean a.sum a.count ≤ a.greatest := by
  have hMean : Tenths.IsNearest a.sum a.count (Tenths.roundedMean a.sum a.count) :=
    Tenths.isNearest_roundedMean h.count_pos
  obtain ⟨hLow, hHigh⟩ := h.sum_between
  exact ⟨(Tenths.isNearest_mul h.count_pos a.least).mono h.count_pos hMean hLow,
    hMean.mono h.count_pos (Tenths.isNearest_mul h.count_pos a.greatest) hHigh⟩

/-- The sum of readings that lie between two bounds. -/
theorem natAbs_sum_le {bound : Nat} {readings : List Int}
    (h : ∀ value ∈ readings, value.natAbs ≤ bound) :
    readings.sum.natAbs ≤ bound * readings.length := by
  induction readings with
  | nil => simp
  | cons value readings ih =>
      have hHead := h value List.mem_cons_self
      have hTail := ih fun other hOther => h other (List.mem_cons_of_mem value hOther)
      rw [List.sum_cons, List.length_cons, Nat.mul_succ]
      omega

/-- There is a reading, and the sum is no greater in magnitude than that of as many readings of
sixteen bits. Joining keeps this, and the width of the fields asks for nothing more. -/
structure Credible (a : Aggregate) : Prop where
  count_pos : 0 < a.count
  natAbs_sum_le : a.sum.natAbs ≤ 2 ^ 15 * a.count.natAbs

theorem Summarises.credible {a : Aggregate} {readings : List Int} (h : a.Summarises readings)
    (hAll : ∀ value ∈ readings, value.natAbs ≤ 2 ^ 15) : a.Credible where
  count_pos := h.count_pos
  natAbs_sum_le := by
    rw [h.sum, h.count, Int.natAbs_natCast]
    exact Aggregate.natAbs_sum_le hAll

theorem Credible.join {a b : Aggregate} (ha : a.Credible) (hb : b.Credible) :
    (a.join b).Credible := by
  obtain ⟨hCount, hSum⟩ := ha
  obtain ⟨hCount', hSum'⟩ := hb
  constructor
  · simp only [Aggregate.join]
    omega
  · simp only [Aggregate.join]
    omega

/-- A count that fits its field makes the sum fit its own. -/
theorem Credible.inRange {a : Aggregate} (h : a.Credible) (hCount : a.count < 2 ^ 31) :
    a.InRange := by
  have hPos := h.count_pos
  have hSum := h.natAbs_sum_le
  simp only [InRange, Tenths.Fits, UInt64.size, UInt32.size]
  omega

/-- Aggregates whose counts together fit their field can be merged. -/
theorem Credible.merge_eq {a b : Aggregate} (ha : a.Credible) (hb : b.Credible)
    (hCount : a.count + b.count < 2 ^ 31) : a.merge b = .ok (a.join b) :=
  if_pos ((ha.join hb).inRange hCount)

/-- A count that fits its field makes the mean one that is had. -/
theorem Credible.mean_eq {a : Aggregate} (h : a.Credible) (hCount : a.count < 2 ^ 31) :
    a.mean = .ok (Tenths.roundedMean a.sum a.count) := by
  have hPos := h.count_pos
  have hSum := h.natAbs_sum_le
  exact Tenths.mean_eq hPos (by omega)

theorem Credible.chars_eq {a : Aggregate} (h : a.Credible) (hCount : a.count < 2 ^ 31) :
    a.chars = .ok (Tenths.decimal a.least ++ "/" ++
      Tenths.decimal (Tenths.roundedMean a.sum a.count) ++ "/" ++
        Tenths.decimal a.greatest).toList := by
  rw [chars, h.mean_eq hCount]
  simp [Tenths.chars_eq, Pure.pure, Except.pure, Bind.bind, Except.bind]

/-- The aggregate sums up readings that all lie between -99.9 and 99.9. -/
def Bounded (a : Aggregate) : Prop :=
  ∃ readings : List Int, a.Summarises readings ∧ ∀ value ∈ readings, value.natAbs ≤ 999

theorem bounded_single {value : Int} (h : value.natAbs ≤ 999) : (single value).Bounded :=
  ⟨[value], summarises_single value, by simpa using h⟩

theorem Bounded.join {a b : Aggregate} (ha : a.Bounded) (hb : b.Bounded) : (a.join b).Bounded := by
  obtain ⟨first, hFirst, hFirstAll⟩ := ha
  obtain ⟨second, hSecond, hSecondAll⟩ := hb
  refine ⟨first ++ second, hFirst.join hSecond, fun value hValue => ?_⟩
  rcases List.mem_append.mp hValue with hValue | hValue
  · exact hFirstAll value hValue
  · exact hSecondAll value hValue

/-- The sum is at most the greatest magnitude of a reading times the count. -/
theorem Bounded.natAbs_sum_le {a : Aggregate} (h : a.Bounded) :
    a.sum.natAbs ≤ 999 * a.count.natAbs := by
  obtain ⟨readings, hReadings, hAll⟩ := h
  rw [hReadings.sum, hReadings.count, Int.natAbs_natCast]
  exact Aggregate.natAbs_sum_le hAll

theorem Bounded.credible {a : Aggregate} (h : a.Bounded) : a.Credible := by
  obtain ⟨readings, hReadings, hAll⟩ := h
  exact hReadings.credible fun value hValue => (hAll value hValue).trans (by decide)

end StationStats.Aggregate
