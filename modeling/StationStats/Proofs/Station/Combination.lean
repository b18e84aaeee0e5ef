import StationStats.Proofs.Station.Aggregate

/-!
Aggregates that are put together one reading or one other aggregate at a time. However it is done,
the aggregate sums up all of the readings, and its mean lies between the extremes.
-/

namespace StationStats

/-- How an aggregate is put together: from its first reading, by adding one more reading, or by
merging another aggregate into it. -/
inductive Combination where
  | single (value : Int)
  | add (before : Combination) (value : Int)
  | merge (into other : Combination)

namespace Combination

/-- All readings that go into the aggregate. -/
def readings : Combination → List Int
  | single value => [value]
  | add before value => before.readings ++ [value]
  | merge into other => into.readings ++ other.readings

/-- Puts the aggregate together. -/
def run : Combination → Except Fault Aggregate
  | single value => .ok (Aggregate.single value)
  | add before value =>
    match before.run with
    | .error fault => .error fault
    | .ok a => a.add value
  | merge into other =>
    match into.run with
    | .error fault => .error fault
    | .ok a =>
      match other.run with
      | .error fault => .error fault
      | .ok b => a.merge b

/-- Readings of sixteen bits that can be counted. -/
structure Countable (readings : List Int) : Prop where
  each : ∀ value ∈ readings, Tenths.Fits UInt16.size value
  few : readings.length < 2 ^ 31

theorem Countable.append {first second : List Int} (h : Countable (first ++ second)) :
    Countable first ∧ Countable second := by
  have hFew := h.few
  rw [List.length_append] at hFew
  exact ⟨⟨fun value hValue => h.each value (List.mem_append_left second hValue), by omega⟩,
    ⟨fun value hValue => h.each value (List.mem_append_right first hValue), by omega⟩⟩

/-- The aggregate of countable readings has a sum and a count that fit their fields. -/
theorem Countable.fits {readings : List Int} (h : Countable readings) {a : Aggregate}
    (hSummarises : a.Summarises readings) : a.Credible ∧ a.count < 2 ^ 31 := by
  have hFew := h.few
  refine ⟨hSummarises.credible fun value hValue => ?_, ?_⟩
  · have hEach := h.each value hValue
    simp only [Tenths.Fits, UInt16.size] at hEach
    omega
  · rw [hSummarises.count]
    omega

/-- Two aggregates of readings that are countable together can be merged. -/
theorem Countable.merge_eq {first second : List Int} (h : Countable (first ++ second))
    {a b : Aggregate} (ha : a.Summarises first) (hb : b.Summarises second) :
    a.merge b = .ok (a.join b) := by
  obtain ⟨hFirst, hSecond⟩ := h.append
  exact (hFirst.fits ha).1.merge_eq (hSecond.fits hb).1 (h.fits (ha.join hb)).2

/-- No step runs over if the readings are countable, and the aggregate sums them up. -/
theorem exists_run (c : Combination) (h : Countable c.readings) :
    ∃ a, c.run = .ok a ∧ a.Summarises c.readings := by
  induction c with
  | single value => exact ⟨_, rfl, Aggregate.summarises_single value⟩
  | add before value ih =>
      obtain ⟨a, hRun, hSummarises⟩ := ih h.append.1
      have hLast := Aggregate.summarises_single value
      refine ⟨a.join (Aggregate.single value), ?_, hSummarises.join hLast⟩
      simp only [run, hRun, Aggregate.add]
      exact h.merge_eq hSummarises hLast
  | merge into other ihInto ihOther =>
      obtain ⟨a, hInto, hFirst⟩ := ihInto h.append.1
      obtain ⟨b, hOther, hSecond⟩ := ihOther h.append.2
      refine ⟨a.join b, ?_, hFirst.join hSecond⟩
      simp only [run, hInto, hOther]
      exact h.merge_eq hFirst hSecond

/-- Fewer than 2³¹ readings, put together in any way, are summed up without a fault: the count is
their number, the extremes are readings, and the mean that is shown lies between them. If all
readings are the same, it is that reading. -/
theorem exists_mean_between (c : Combination) (hEach : ∀ value ∈ c.readings,
    Tenths.Fits UInt16.size value) (hFew : c.readings.length < 2 ^ 31) :
    ∃ a mean, c.run = .ok a ∧ a.count = c.readings.length ∧ a.sum = c.readings.sum ∧
      (a.least ∈ c.readings ∧ a.greatest ∈ c.readings ∧
        ∀ value ∈ c.readings, a.least ≤ value ∧ value ≤ a.greatest) ∧
      a.least ≤ a.greatest ∧ (a.count * a.least ≤ a.sum ∧ a.sum ≤ a.count * a.greatest) ∧
      a.mean = .ok mean ∧ (a.least ≤ mean ∧ mean ≤ a.greatest) ∧
      a.chars = .ok (Tenths.decimal a.least ++ "/" ++ Tenths.decimal mean ++ "/" ++
        Tenths.decimal a.greatest).toList ∧
      ((∀ value ∈ c.readings, ∀ other ∈ c.readings, value = other) → mean = a.least) := by
  have hCountable : Countable c.readings := ⟨hEach, hFew⟩
  obtain ⟨a, hRun, hSummarises⟩ := c.exists_run hCountable
  obtain ⟨hCredible, hCount⟩ := hCountable.fits hSummarises
  have hBetween := hSummarises.between
  have hMean := hSummarises.roundedMean_between
  refine ⟨a, Tenths.roundedMean a.sum a.count, hRun, hSummarises.count, hSummarises.sum, hBetween,
    hMean.1.trans hMean.2, hSummarises.sum_between, hCredible.mean_eq hCount, hMean,
      hCredible.chars_eq hCount, ?_⟩
  intro hSame
  have hExtremes : a.greatest = a.least := hSame _ hBetween.2.1 _ hBetween.1
  exact le_antisymm (hMean.2.trans_eq hExtremes) hMean.1

/-- Two readings below zero with one above them, merged into one to which another was added: the
mean -0.75 is shown as -0.8. -/
theorem exists_mean_between_four_readings :
    ∃ a, (merge (add (single (-5)) (-3)) (merge (single 4) (single (-26)))).run = .ok a ∧
      a.chars = .ok "-2.6/-0.8/0.4".toList ∧ a.count * a.least ≤ a.sum := by
  obtain ⟨a, mean, hRun, -, -, -, -, hBounds, hMean, -, hChars, -⟩ :=
    exists_mean_between (merge (add (single (-5)) (-3)) (merge (single 4) (single (-26))))
      (by decide) (by decide)
  obtain rfl : ⟨-30, 4, -26, 4⟩ = a := Except.ok.inj hRun
  obtain rfl : -8 = mean := Except.ok.inj hMean
  have hText : Tenths.decimal (-26) ++ "/" ++ Tenths.decimal (-8) ++ "/" ++ Tenths.decimal 4 =
      "-2.6/-0.8/0.4" := by
    decide
  rw [hText] at hChars
  exact ⟨_, hRun, hChars, hBounds.1⟩

end Combination

end StationStats
