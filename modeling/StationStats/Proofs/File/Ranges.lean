import StationStats.Proofs.File.Segmentation

/-!
The nearly equal ranges that a file is divided along: how many there are, and that they make up the
file. Nothing here looks at the bytes of a file.
-/

namespace StationStats

/-- Segments that go on where others end. -/
theorem Tiles.append {start middle stop : Nat} {first second : List Segment}
    (hFirst : Tiles start first middle) (hSecond : Tiles middle second stop) :
    Tiles start (first ++ second) stop := by
  induction first generalizing start with
  | nil =>
      have hSame : start = middle := hFirst
      rw [List.nil_append, hSame]
      exact hSecond
  | cons segment rest ih =>
      obtain ⟨hStart, hSome, hRest⟩ := hFirst
      exact ⟨hStart, hSome, ih hRest⟩

/-- Each segment ends behind the start of the first one. -/
theorem Tiles.lt_stop {start stop : Nat} {segments : List Segment} (h : Tiles start segments stop)
    {segment : Segment} (hMem : segment ∈ segments) : start < segment.stop := by
  induction segments generalizing start with
  | nil => cases hMem
  | cons first rest ih =>
      obtain ⟨hStart, hSome, hRest⟩ := h
      have hFirst : start < first.stop := by
        rw [Segment.stop]
        omega
      rcases List.mem_cons.mp hMem with rfl | hLater
      · exact hFirst
      · exact Nat.lt_trans hFirst (ih hRest hLater)

/-- The ends ascend. -/
theorem Tiles.pairwise_stop_lt {start stop : Nat} {segments : List Segment}
    (h : Tiles start segments stop) :
    (segments.map Segment.stop).Pairwise (· < ·) := by
  induction segments generalizing start with
  | nil => exact List.Pairwise.nil
  | cons segment rest ih =>
      obtain ⟨-, -, hRest⟩ := h
      apply List.Pairwise.cons _ (ih hRest)
      intro later hLater
      obtain ⟨other, hOther, rfl⟩ := List.mem_map.mp hLater
      exact hRest.lt_stop hOther

/-- Where segments start and where each of them ends is all there is to say about them. -/
theorem Tiles.eq_of_stops {start stop stop' : Nat} {segments others : List Segment}
    (h : Tiles start segments stop) (hOthers : Tiles start others stop')
    (hStops : segments.map Segment.stop = others.map Segment.stop) : segments = others := by
  induction segments generalizing start others with
  | nil => exact (List.map_eq_nil_iff.mp hStops.symm).symm
  | cons segment rest ih =>
      cases others with
      | nil => cases hStops
      | cons other more =>
          rw [List.map_cons, List.map_cons, List.cons.injEq] at hStops
          obtain ⟨hStop, hRestStops⟩ := hStops
          obtain ⟨hStart, -, hRest⟩ := h
          obtain ⟨hStart', -, hMore⟩ := hOthers
          have hHead : segment = other := by
            cases segment
            cases other
            simp only [Segment.stop, Segment.mk.injEq] at hStop hStart hStart' ⊢
            omega
          rw [hHead] at hRest ⊢
          rw [ih hRest hMore hRestStops]

namespace Segment

variable {fileLength : Nat}

/-- The ranges of a file that is split. -/
theorem rawLength_pos (h : splitThreshold ≤ fileLength) (threads : Nat) :
    0 < rawLength fileLength threads := by
  have hLong :=
    mt (Segmentation.rawLength_lt_splitThreshold_iff fileLength threads).mp (Nat.not_lt.mpr h)
  simp only [splitThreshold, slack, cacheLine] at hLong
  omega

theorem rawLength_le (fileLength threads : Nat) : rawLength fileLength threads ≤ fileLength :=
  Nat.min_le_right _ _

/-- All ranges but the last have the same length, and the last one takes what is left. -/
theorem exists_raw_eq (h : splitThreshold ≤ fileLength) (threads : Nat) :
    ∃ n, n + 1 = fileLength / rawLength fileLength threads ∧
      raw fileLength threads =
        (List.range n).map
          (fun i => ⟨i * rawLength fileLength threads, rawLength fileLength threads⟩) ++
          [⟨n * rawLength fileLength threads, fileLength - n * rawLength fileLength threads⟩] := by
  have hCount := Nat.div_pos (rawLength_le fileLength threads) (rawLength_pos h threads)
  have hLong :=
    mt (Segmentation.rawLength_lt_splitThreshold_iff fileLength threads).mp (Nat.not_lt.mpr h)
  obtain ⟨n, hn⟩ : ∃ n, n + 1 = fileLength / rawLength fileLength threads :=
    ⟨_, Nat.sub_add_cancel hCount⟩
  refine ⟨n, hn, ?_⟩
  rw [raw, if_neg hLong]
  simp only
  rw [← hn, List.range_succ, List.map_append, List.map_singleton, if_pos rfl]
  congr 1
  apply List.map_congr_left
  intro i hi
  have hBefore : i < n := List.mem_range.mp hi
  rw [if_neg (by omega)]

/-- Ranges of one length follow one another. -/
theorem tiles_range {length : Nat} (h : 0 < length) (n : Nat) :
    Tiles 0 ((List.range n).map fun i => ⟨i * length, length⟩) (n * length) := by
  induction n with
  | zero => exact (Nat.zero_mul length).symm
  | succ n ih =>
      rw [List.range_succ, List.map_append, List.map_singleton]
      apply ih.append
      exact ⟨rfl, h, (Nat.succ_mul n length).symm⟩

/-- The ranges make up the file. -/
theorem tiles_raw (h : splitThreshold ≤ fileLength) (threads : Nat) :
    Tiles 0 (raw fileLength threads) fileLength := by
  obtain ⟨n, hn, hRaw⟩ := exists_raw_eq h threads
  have hLength := rawLength_pos h threads
  have hAll := Nat.div_mul_le_self fileLength (rawLength fileLength threads)
  rw [← hn, Nat.succ_mul] at hAll
  rw [hRaw]
  apply (tiles_range hLength n).append
  refine ⟨rfl, by simp only; omega, ?_⟩
  simp only [Segment.stop, Tiles]
  omega

theorem length_raw (h : splitThreshold ≤ fileLength) (threads : Nat) :
    (raw fileLength threads).length = fileLength / rawLength fileLength threads := by
  obtain ⟨n, hn, hRaw⟩ := exists_raw_eq h threads
  rw [hRaw, List.length_append, List.length_map, List.length_range, List.length_singleton, hn]

/-- The offset of a range is a product that fits a word of sixty-four bits like the
length of the file, and it is not more than that length, so that what is left behind it
is no less than nothing. -/
theorem toNat_offset {fileLength : UInt64} {threads i : Nat} (h : splitThreshold ≤ fileLength.toNat)
    (hi : i < fileLength.toNat / rawLength fileLength.toNat threads) :
    (i.toUInt64 * (rawLength fileLength.toNat threads).toUInt64).toNat =
      i * rawLength fileLength.toNat threads ∧
      (fileLength - i.toUInt64 * (rawLength fileLength.toNat threads).toUInt64).toNat =
        fileLength.toNat - i * rawLength fileLength.toNat threads := by
  have hPos := rawLength_pos h threads
  have hShort := rawLength_le fileLength.toNat threads
  have hFile := fileLength.toNat_lt
  generalize rawLength fileLength.toNat threads = length at hi hPos hShort
  have hProduct : i * length ≤ fileLength.toNat :=
    Nat.le_trans (Nat.mul_le_mul_right length (Nat.le_of_lt hi)) (Nat.div_mul_le_self _ _)
  have hIndex : i ≤ i * length := Nat.le_mul_of_pos_right i hPos
  have hWords : (i.toUInt64 * length.toUInt64).toNat = i * length := by
    rw [UInt64.toNat_mul, UInt64.toNat_ofNat_of_lt' (by rw [UInt64.size]; omega),
      UInt64.toNat_ofNat_of_lt' (by rw [UInt64.size]; omega), Nat.mod_eq_of_lt (by omega)]
  refine ⟨hWords, ?_⟩
  rw [UInt64.toNat_sub_of_le _ _ (by rwa [UInt64.le_iff_toNat_le, hWords]), hWords]

/-- A file is split unless it is short. Its ranges follow one another from the start to the end of
it. All but the last one have the same length, which is the share of a thread, but not less than the
least one and not more than the file; the last one is less than twice as long. Words of sixty-four
bits hold all of this. -/
theorem raw_splits_evenly (fileLength : UInt64) (threads : Nat) :
    (raw fileLength.toNat threads = [] ↔ fileLength.toNat < splitThreshold) ∧
    (fileLength.toNat < splitThreshold ∨ ∃ length before last,
      length = min fileLength.toNat (max leastSegment (fileLength.toNat / max threads 1)) ∧
      raw fileLength.toNat threads = before ++ [last] ∧
        Tiles 0 (before ++ [last]) fileLength.toNat ∧
      (∀ range ∈ before, range.length = length) ∧ length ≤ last.length ∧ last.length < 2 * length ∧
      ∀ i < fileLength.toNat / length,
        (i.toUInt64 * length.toUInt64).toNat = i * length ∧
          (fileLength - i.toUInt64 * length.toUInt64).toNat = fileLength.toNat - i * length) := by
  constructor
  · rw [← List.isEmpty_iff]
    exact Segmentation.raw_isEmpty_iff _ _
  · rcases Nat.lt_or_ge fileLength.toNat splitThreshold with hShort | h
    · exact Or.inl hShort
    obtain ⟨n, hn, hRaw⟩ := exists_raw_eq h threads
    have hTiles := tiles_raw h threads
    have hSplit := Nat.div_add_mod' fileLength.toNat (rawLength fileLength.toNat threads)
    have hRest := Nat.mod_lt fileLength.toNat (rawLength_pos h threads)
    rw [← hn, Nat.succ_mul] at hSplit
    rw [hRaw] at hTiles
    refine Or.inr ⟨rawLength fileLength.toNat threads, _, _, ?_, hRaw, hTiles, ?_, ?_, ?_,
      fun i hi =>
      toNat_offset h hi⟩
    · rw [rawLength, Nat.min_comm, Nat.max_comm]
    · intro range hRange
      obtain ⟨i, -, rfl⟩ := List.mem_map.mp hRange
      rfl
    · simp only
      omega
    · simp only
      omega

/-- The ranges before the last one: none of them is shorter than a range has to be. -/
theorem exists_dropLast_raw_eq (h : splitThreshold ≤ fileLength) (threads : Nat) :
    ∃ n length, (raw fileLength threads).dropLast =
      (List.range n).map (fun i => ⟨i * length, length⟩) ∧
      (raw fileLength threads).length = n + 1 ∧ (n + 1) * length ≤ fileLength ∧
        (0 < n → leastSegment ≤ length) := by
  obtain ⟨n, hn, hRaw⟩ := exists_raw_eq h threads
  refine ⟨n, rawLength fileLength threads, ?_, ?_, hn ▸ Nat.div_mul_le_self _ _, ?_⟩
  · rw [hRaw, List.dropLast_concat]
  · rw [length_raw h, hn]
  · intro hMore
    by_contra hShort
    -- Only a range that is the whole file is shorter, and then there is no other.
    have hWhole : rawLength fileLength threads = fileLength := by
      rw [rawLength] at hShort ⊢
      omega
    rw [hWhole, Nat.div_self (Nat.lt_of_lt_of_le (by decide) h)] at hn
    omega

theorem length_dropLast_raw (h : splitThreshold ≤ fileLength) (threads : Nat) :
    (raw fileLength threads).dropLast.length + 1 = (raw fileLength threads).length := by
  obtain ⟨n, length, hRanges, hCount, -⟩ := exists_dropLast_raw_eq h threads
  rw [hRanges, hCount, List.length_map, List.length_range]

/-- The ranges before the last one end as far apart as a range is long at least. -/
theorem pairwise_stop_raw (h : splitThreshold ≤ fileLength) (threads : Nat) :
    ((raw fileLength threads).dropLast.map stop).Pairwise fun first later =>
      first + leastSegment ≤ later := by
  obtain ⟨n, length, hRanges, -, -, hLeast⟩ := exists_dropLast_raw_eq h threads
  rw [hRanges, List.map_map, List.pairwise_map]
  apply List.pairwise_lt_range.imp_of_mem
  intro i j hi hj hOrder
  have hLength := hLeast (Nat.zero_lt_of_lt (List.mem_range.mp hi))
  have hNext := Nat.mul_le_mul_right length (Nat.succ_le_of_lt hOrder)
  rw [Nat.succ_mul] at hNext
  simp only [Function.comp_apply, stop]
  omega

/-- Behind the end of each of them there is as much as a range has at least. -/
theorem stop_add_leastSegment_le (h : splitThreshold ≤ fileLength) {threads : Nat} {range : Segment}
    (hRange : range ∈ (raw fileLength threads).dropLast) :
    range.stop + leastSegment ≤ fileLength := by
  obtain ⟨n, length, hRanges, -, hAll, hLeast⟩ := exists_dropLast_raw_eq h threads
  rw [hRanges] at hRange
  obtain ⟨i, hi, rfl⟩ := List.mem_map.mp hRange
  have hInside := List.mem_range.mp hi
  have hLength := hLeast (Nat.zero_lt_of_lt hInside)
  have hNext := Nat.mul_le_mul_right length (Nat.succ_le_of_lt hInside)
  rw [Nat.succ_mul] at hNext hAll
  simp only [stop]
  omega

/-! ### Ranges and threads -/

/-- The share of a thread is shorter than a range may be, or what the shares leave over is
less than another share. -/
def SharesOut (fileLength threads : Nat) : Prop :=
  fileLength / max threads 1 < leastSegment ∨
    fileLength % max threads 1 < fileLength / max threads 1

/-- With short shares there are no more ranges than threads. -/
theorem length_raw_le_of_short {threads : Nat}
    (hShare : fileLength / max threads 1 < leastSegment) :
    (raw fileLength threads).length ≤ max threads 1 := by
  have hThreads : 0 < max threads 1 := Nat.lt_of_lt_of_le Nat.one_pos (Nat.le_max_right _ _)
  by_cases hShort : fileLength < splitThreshold
  · rw [List.isEmpty_iff.mp ((Segmentation.raw_isEmpty_iff fileLength threads).mpr hShort)]
    exact Nat.zero_le _
  · rw [length_raw (Nat.not_lt.mp hShort), rawLength, Nat.max_eq_right (Nat.le_of_lt hShare)]
    rcases Nat.le_total leastSegment fileLength with hMore | hLess
    · rw [Nat.min_eq_left hMore]
      apply Nat.div_le_of_le_mul
      exact Nat.le_of_lt ((Nat.div_lt_iff_lt_mul hThreads).mp hShare)
    · have hSome : 0 < fileLength := Nat.lt_of_lt_of_le (by decide) (Nat.not_lt.mp hShort)
      rw [Nat.min_eq_right hLess, Nat.div_self hSome]
      exact hThreads

/-- With shares that are not short there is a range for each thread, and another one for each
share that is left over. -/
theorem length_raw_of_long {threads : Nat} (hShare : leastSegment ≤ fileLength / max threads 1) :
    (raw fileLength threads).length =
      max threads 1 + fileLength % max threads 1 / (fileLength / max threads 1) := by
  have hLess := Nat.div_le_self fileLength (max threads 1)
  have hSome : 0 < fileLength / max threads 1 := Nat.lt_of_lt_of_le (by decide) hShare
  have hLong : splitThreshold ≤ fileLength := by
    simp only [splitThreshold, slack, cacheLine, leastSegment] at hShare ⊢
    omega
  rw [length_raw hLong, rawLength, Nat.max_eq_left hShare, Nat.min_eq_left hLess]
  have hAll := Nat.div_add_mod' fileLength (max threads 1)
  generalize fileLength / max threads 1 = share at hSome hAll
  rw [← hAll, Nat.mul_add_div hSome, hAll]

/-- There are no more ranges than threads exactly if the file shares out. -/
theorem length_raw_le_iff (fileLength threads : Nat) :
    (raw fileLength threads).length ≤ max threads 1 ↔ SharesOut fileLength threads := by
  rcases Nat.lt_or_ge (fileLength / max threads 1) leastSegment with hShort | hLong
  · exact iff_of_true (length_raw_le_of_short hShort) (Or.inl hShort)
  · have hSome : 0 < fileLength / max threads 1 := Nat.lt_of_lt_of_le (by decide) hLong
    rw [length_raw_of_long hLong, SharesOut, or_iff_right (Nat.not_lt.mpr hLong),
      ← Nat.div_eq_zero_iff_lt hSome]
    generalize fileLength % max threads 1 / (fileLength / max threads 1) = more
    omega

/-- There is at most one range more for as many threads as the least range has bytes. -/
theorem length_raw_le (fileLength threads : Nat) :
    (raw fileLength threads).length ≤ max threads 1 + (max threads 1 - 1) / leastSegment := by
  rcases Nat.lt_or_ge (fileLength / max threads 1) leastSegment with hShort | hLong
  · exact Nat.le_trans (length_raw_le_of_short hShort) (Nat.le_add_right _ _)
  · rw [length_raw_of_long hLong]
    have hThreads : 0 < max threads 1 := Nat.lt_of_lt_of_le Nat.one_pos (Nat.le_max_right _ _)
    have hRest := Nat.le_sub_one_of_lt (Nat.mod_lt fileLength hThreads)
    exact Nat.add_le_add_left (Nat.div_le_div hRest hLong (by decide)) _

end Segment

end StationStats
