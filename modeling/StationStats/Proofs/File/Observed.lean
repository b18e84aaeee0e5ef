import StationStats.Proofs.Row.Safety
import StationStats.Proofs.Station.Union

/-!
How many observations come into a table, and what that says about the values it holds and
computes. Fewer than 2³¹ of them, added in any calls, whether these fail or not, leave every
count, sum and mean inside its field.
-/

namespace StationStats

namespace Aggregate

variable {a b : Aggregate}

/-- Where the values of an aggregate of fewer than 2³¹ readings between -99.9 and 99.9 lie. -/
structure Narrow (a : Aggregate) : Prop where
  natAbs_sum_le : (a.sum.natAbs : Int) ≤ 999 * a.count
  count : 1 ≤ a.count ∧ a.count < 2 ^ 31
  least : -999 ≤ a.least ∧ a.least ≤ 999
  greatest : -999 ≤ a.greatest ∧ a.greatest ≤ 999

theorem Bounded.narrow (h : a.Bounded) (hCount : a.count < 2 ^ 31) : a.Narrow := by
  have hSum := h.natAbs_sum_le
  have hPos := h.credible.count_pos
  obtain ⟨readings, hReadings, hAll⟩ := h
  obtain ⟨hLeast, hGreatest, -⟩ := hReadings.between
  have hLeast' := hAll _ hLeast
  have hGreatest' := hAll _ hGreatest
  constructor <;> omega

/-- Every value on the way to the mean fits sixty-four bits, and the divisor is not
zero. So there is a mean. -/
structure MeanFits (a : Aggregate) : Prop where
  magnitude : Tenths.Fits UInt64.size a.sum.natAbs
  doubled : Tenths.Fits UInt64.size (2 * (a.sum.natAbs : Int))
  shifted : Tenths.Fits UInt64.size (2 * (a.sum.natAbs : Int) + a.count)
  divisor : Tenths.Fits UInt64.size (2 * a.count)
  divisor_ne : 2 * a.count ≠ 0
  quotient : Tenths.Fits UInt64.size ((2 * (a.sum.natAbs : Int) + a.count).tdiv (2 * a.count))
  negated : Tenths.Fits UInt64.size (-(2 * (a.sum.natAbs : Int) + a.count).tdiv (2 * a.count))
  mean_eq : a.mean = .ok (Tenths.roundedMean a.sum a.count)

theorem Narrow.meanFits (h : a.Narrow) : a.MeanFits := by
  obtain ⟨hSum, ⟨hPos, hFew⟩, -, -⟩ := h
  have hFits {n : Int} (h : n.natAbs < 2 ^ 63) : Tenths.Fits UInt64.size n := by
    simp only [Tenths.Fits, UInt64.size]
    omega
  have hShifted : 0 ≤ 2 * (a.sum.natAbs : Int) + a.count := by omega
  have hQuotient : ((2 * (a.sum.natAbs : Int) + a.count).tdiv (2 * a.count)).natAbs ≤
      (2 * (a.sum.natAbs : Int) + a.count).natAbs := Int.natAbs_tdiv_le_natAbs _ _
  exact
    { magnitude := hFits (by omega)
      doubled := hFits (by omega)
      shifted := hFits (by omega)
      divisor := hFits (by omega)
      divisor_ne := by omega
      quotient := hFits (hQuotient.trans_lt (by omega))
      negated := hFits (by
        rw [Int.natAbs_neg]
        exact hQuotient.trans_lt (by omega))
      mean_eq := Tenths.mean_eq hPos (by omega) }

/-- Aggregates with fewer than 2³¹ readings behind them together are merged without running over. -/
theorem Bounded.merge_eq (ha : a.Bounded) (hb : b.Bounded) (hCount : a.count + b.count < 2 ^ 31) :
    a.merge b = .ok (a.join b) ∧ (a.join b).Narrow :=
  ⟨ha.credible.merge_eq hb.credible hCount, (ha.join hb).narrow hCount⟩

end Aggregate

namespace Table

variable {hash : KeyHash} {t t' other : Table hash}

/-- The number of readings behind some entries. -/
def readings (entries : List Entry) : Int := (entries.map (·.aggregate.count)).sum

theorem readings_append (first second : List Entry) :
    readings (first ++ second) = readings first + readings second := by
  rw [readings, List.map_append, List.sum_append, readings, readings]

theorem Bounded.count_le_readings (h : Bounded t) {entry : Entry} (hEntry : entry ∈ t.entries) :
    entry.aggregate.count ≤ readings t.entries.toList := by
  apply List.single_le_sum _ _ (List.mem_map_of_mem (Array.mem_toList_iff.mpr hEntry))
  intro count hCount
  obtain ⟨other, hOther, rfl⟩ := List.mem_map.mp hCount
  exact (h other (Array.mem_toList_iff.mp hOther)).credible.count_pos.le

/-- Readings behind an aggregate are counted once. -/
theorem readings_absorb {key : Key} {hashed : UInt32} {a : Aggregate}
    (hAdded : absorb key hashed a t = .ok () t') :
    readings t'.entries.toList = readings t.entries.toList + a.count := by
  rcases absorb_ok_cases hAdded with ⟨i, entry, hAt, -, rfl⟩ | ⟨-, rfl⟩
  · obtain ⟨hIndex, rfl⟩ := Array.getElem?_eq_some_iff.mp hAt
    have hLength : i < (t.entries.toList.map (·.aggregate.count)).length := by simpa using hIndex
    rw [readings, withAggregate, Array.toList_setIfInBounds, List.map_set, List.sum_set',
      dif_pos hLength]
    simp only [List.getElem_map, Array.getElem_toList, Aggregate.join, readings]
    omega
  · rw [withStation, Array.toList_push, readings_append]
    simp [readings, newEntry]

theorem readings_observeAll {taken : List Observation} (hAdded : observeAll taken t = .ok () t') :
    readings t'.entries.toList = readings t.entries.toList + taken.length := by
  induction taken generalizing t with
  | nil =>
      cases hAdded
      simp
  | cons o rest ih =>
      obtain ⟨between, hFirst, hRest⟩ := observeAll_cons_ok_iff.mp hAdded
      have hOne : readings between.entries.toList = readings t.entries.toList + 1 := by
        rw [observe] at hFirst
        split at hFirst
        · cases hFirst
        · exact readings_absorb hFirst
      rw [ih hRest, hOne, List.length_cons]
      omega

theorem readings_absorbAll {entries : List Entry} (hAdded : absorbAll other entries t = .ok () t') :
    readings t'.entries.toList = readings t.entries.toList + readings entries := by
  induction entries generalizing t with
  | nil =>
      cases hAdded
      simp [readings]
  | cons entry rest ih =>
      obtain ⟨between, hFirst, hRest⟩ := absorbAll_cons_ok_iff.mp hAdded
      rw [ih hRest, readings_absorb hFirst, ← List.singleton_append, readings_append]
      simp [readings, Int.add_assoc]

/-! ### Counted tables -/

/-- The tables that can come about, with the number of observations that were added on the way. Rows
and segments add one observation after the other, merging adds the readings behind one entry after
the other, and what was added before a call failed stays. Any such table can be merged, even one
whose keys have outgrown their positions. -/
inductive ReachedWith : Int → Table hash → Prop where
  | start {wanted : Nat} {t : Table hash} (h : withCapacity wanted = .ok t) : ReachedWith 0 t
  | rows {n : Int} {t : Table hash} (h : ReachedWith n t) (rows : Bytes) (len : Nat)
      {taken : List Observation}
      (hTaken : observeAll taken t = .ok () (stateAfter (addRows rows len) t)) :
      ReachedWith (n + taken.length) (stateAfter (addRows rows len) t)
  | reads {n : Int} {t : Table hash} (h : ReachedWith n t) (source : Source) (segment : Segment)
      (buffer : Bytes) {taken : List Observation}
      (hTaken : observeAll taken t = .ok () (stateAfter (addReads source segment buffer) t)) :
      ReachedWith (n + taken.length) (stateAfter (addReads source segment buffer) t)
  | merge {n m : Int} {t other : Table hash} (h : ReachedWith n t) (hOther : ReachedWith m other)
      {k : Nat} (hTaken : mergeFirst k other t = .ok () (stateAfter (mergeFrom other) t)) :
      ReachedWith (n + readings (other.entries.toList.take k)) (stateAfter (mergeFrom other) t)

variable {n m : Int}

/-- A counted table is one that came about. -/
theorem ReachedWith.reached (h : ReachedWith n t) : Reached t := by
  induction h with
  | start h => exact .start h
  | rows _ rows len _ ih => exact ih.rows rows len
  | reads _ source segment buffer _ ih => exact ih.reads source segment buffer
  | merge _ _ _ ih ihOther => exact ih.merge ihOther

theorem ReachedWith.bounded (h : ReachedWith n t) : Bounded t := h.reached.bounded

/-- Each observation is counted in one entry. -/
theorem ReachedWith.readings_eq (h : ReachedWith n t) : readings t.entries.toList = n := by
  induction h with
  | start h =>
      obtain ⟨size, -, -, rfl⟩ := exists_ofSize_of_withCapacity h
      rfl
  | rows _ rows len hTaken ih => rw [readings_observeAll hTaken, ih]
  | reads _ source segment buffer hTaken ih => rw [readings_observeAll hTaken, ih]
  | merge _ _ hTaken ih _ => rw [readings_absorbAll hTaken, ih]

theorem ReachedWith.bounded_of_mem (h : ReachedWith n t) {station : Station}
    (hStation : station ∈ t.stations) :
    station.aggregate.Bounded ∧ station.aggregate.count ≤ n := by
  obtain ⟨entry, hEntry, rfl⟩ := List.mem_map.mp hStation
  have hBounded := h.bounded
  rw [Array.mem_toList_iff] at hEntry
  exact ⟨hBounded entry hEntry, h.readings_eq ▸ hBounded.count_le_readings hEntry⟩

/-! ### What a call adds -/

theorem observeAll_snoc {start : Table hash} {taken : List Observation}
    (hTaken : observeAll taken start = .ok () t) {name : List UInt8} {tenths : Int}
    (hLength : name.length ≤ longestName) (hAdded : add (Key.packed name) tenths t = .ok () t') :
    observeAll (taken ++ [⟨name, tenths⟩]) start = .ok () t' := by
  have hLast : observe ⟨name, tenths⟩ t = .ok () t' :=
    (observe_eq (hLength.trans longestName_lt.le) t).trans hAdded
  exact observeAll_append_ok_iff.mpr ⟨t, hTaken, observeAll_cons_ok_iff.mpr ⟨t', hLast, rfl⟩⟩

/-- Whatever rows hold, what is added of them are observations. -/
theorem exists_observeAll_addRows (t : Table hash) (rows : Bytes) (len : Nat) :
    ∃ taken, observeAll taken t = .ok () (stateAfter (addRows rows len) t) :=
  addRows_preserves (P := fun t' => ∃ taken, observeAll taken t = .ok () t')
    (fun _ _ _ _ hLength _ ⟨_, hTaken⟩ hAdded => ⟨_, observeAll_snoc hTaken hLength hAdded⟩)
    rows len ⟨[], rfl⟩

theorem exists_observeAll_addReads (t : Table hash) (source : Source) (segment : Segment)
    (buffer : Bytes) :
    ∃ taken, observeAll taken t = .ok () (stateAfter (addReads source segment buffer) t) :=
  addReads_preserves (P := fun t' => ∃ taken, observeAll taken t = .ok () t')
    (fun _ _ _ _ hLength _ ⟨_, hTaken⟩ hAdded => ⟨_, observeAll_snoc hTaken hLength hAdded⟩)
    source segment buffer ⟨[], rfl⟩

/-- Every table that comes about does so with some number of observations. -/
theorem Reached.exists_reachedWith (h : Reached t) : ∃ n, ReachedWith n t := by
  induction h with
  | start h => exact ⟨0, .start h⟩
  | @rows t _ rows len ih =>
      obtain ⟨n, hReached⟩ := ih
      obtain ⟨taken, hTaken⟩ := exists_observeAll_addRows t rows len
      exact ⟨_, hReached.rows rows len hTaken⟩
  | @reads t _ source segment buffer ih =>
      obtain ⟨n, hReached⟩ := ih
      obtain ⟨taken, hTaken⟩ := exists_observeAll_addReads t source segment buffer
      exact ⟨_, hReached.reads source segment buffer hTaken⟩
  | @merge t other _ _ ih ihOther =>
      obtain ⟨n, hReached⟩ := ih
      obtain ⟨m, hOther⟩ := ihOther
      obtain ⟨k, hTaken, -⟩ := exists_absorbAll_take other other.entries.toList t
      exact ⟨_, hReached.merge hOther hTaken⟩

/-- A merge that succeeds adds all observations of the other table. -/
theorem ReachedWith.merged (h : ReachedWith n t) (hOther : ReachedWith m other)
    (hMerged : mergeFrom other t = .ok () t') : ReachedWith (n + m) t' := by
  have hState := stateAfter_of_ok hMerged
  have hWhole : other.entries.toList.take other.length = other.entries.toList :=
    List.take_of_length_le Array.length_toList.le
  have hFirst : mergeFirst other.length other t = .ok () (stateAfter (mergeFrom other) t) := by
    rw [mergeFirst, hWhole, hState]
    exact hMerged
  have hReached := h.merge hOther hFirst
  rwa [hState, hWhole, hOther.readings_eq] at hReached

/-- A new table takes the observations of a text that there is room for. -/
theorem exists_reachedWith_of_reads {wanted : Nat} (hStart : withCapacity wanted = .ok t)
    (hCapacity : t.capacity ≤ 294594427) {text : List UInt8} {observations : List Observation}
    (hTerminated : Terminated text) (hReads : Reads text observations)
    (hRoom : RoomFor t (observations.map Observation.name)) :
    ∃ t' : Table hash, ReachedWith observations.length t' ∧
      t'.stations = Listing.replay observations [] ∧
      t'.size = t.size := by
  obtain ⟨rows, len, t', hRows, hTaken, -, hStations, hSize⟩ :=
    (regular_of_withCapacity hStart).exists_addRows hCapacity hTerminated hReads hRoom
  obtain ⟨size, -, -, rfl⟩ := exists_ofSize_of_withCapacity hStart
  have hState := stateAfter_of_ok hRows
  have hReached := (ReachedWith.start hStart).rows rows len (hState.symm ▸ hTaken)
  rw [hState, Int.zero_add] at hReached
  rw [stations_ofSize] at hStations
  exact ⟨t', hReached, hStations, hSize⟩

/-! ### Why a call stops -/

/-- Rows end on a fault only where the table refuses a reading. -/
theorem Bounded.refuses_of_addRows (h : Bounded t) {rows : Bytes} {len : Nat} {fault : Fault}
    (hFault : Table.addRows rows len t = .error (.fault fault) t') :
    ∃ key, Refuses t' key fault := by
  rw [Table.addRows] at hFault
  by_cases hSlack : len + slack ≤ rows.size
  · rw [if_pos hSlack] at hFault
    obtain ⟨-, stop, reached, -, hEnds⟩ := exists_takesRows hSlack 0 h
    rw [hFault] at hEnds
    cases hEnds with
    | refused _ _ hReason => exact ⟨_, hReason⟩
  · rw [if_neg hSlack] at hFault
    cases hFault

/-- So do the rows of segments, whatever their source delivers. -/
theorem Bounded.refuses_of_addReadsFrom (h : Bounded t) {source : Source} {segment : Segment}
    {offset carried calls : Nat} {buffer : Bytes} {fault : Fault}
    (hFault : addReadsFrom source segment offset carried calls buffer t =
      .error (.fault fault) t') :
    ∃ key, Refuses t' key fault := by
  fun_induction addReadsFrom source segment offset carried calls buffer t with
  | case3 offset carried calls buffer t _ _ _ bytes _ _ _ _ _ halt reached hRefused =>
      cases halt with
      | failed error => cases hFault
      | fault reason =>
          cases hFault
          exact h.refuses_of_addRows hRefused
  | case4 offset carried calls buffer t _ _ _ bytes _ _ _ _ _ _ reached hAdded _ _ ih =>
      have hStill : Bounded reached := stateAfter_of_ok hAdded ▸ h.addRows _ _
      exact ih hStill hFault
  | _ => cases hFault

theorem Bounded.refuses_of_addReads (h : Bounded t) {source : Source} {segment : Segment}
    {buffer : Bytes} {fault : Fault}
    (hFault : Table.addReads source segment buffer t = .error (.fault fault) t') :
    ∃ key, Refuses t' key fault := by
  rw [Table.addReads] at hFault
  by_cases hRoom : slack < buffer.size
  · rw [if_pos hRoom] at hFault
    exact h.refuses_of_addReadsFrom hFault
  · rw [if_neg hRoom] at hFault
    cases hFault

/-- A table with fewer than 2³¹ readings, one more included, refuses a reading
only for lack of room. -/
theorem Bounded.eq_tableFull (h : Bounded t) {key : Key} {fault : Fault}
    (hReason : Refuses t key fault) (hFew : readings t.entries.toList + 1 < 2 ^ 31) :
    fault = .tableFull t.capacity := by
  cases hReason with
  | full => rfl
  | exhausted _ hAt hCount =>
      have hOne := h.count_le_readings (Array.mem_of_getElem? hAt)
      omega

/-- An entry is refused only for lack of room if there are fewer than 2³¹ readings
with those behind it. -/
theorem Bounded.eq_tableFull_of_absorb (h : Bounded t) {key : Key} {hashed : UInt32} {a : Aggregate}
    (ha : a.Bounded) {fault : Fault} (hRefused : Table.absorb key hashed a t = .error fault t')
    (hFew : readings t.entries.toList + a.count < 2 ^ 31) : fault = .tableFull t.capacity := by
  obtain ⟨-, ⟨rfl, -, -⟩ | ⟨rfl, i, entry, -, hAt, hWide⟩⟩ := absorb_error_cases hRefused
  · rfl
  · have hEntry := Array.mem_of_getElem? hAt
    have hOne := h.count_le_readings hEntry
    exact absurd
      (((h entry hEntry).join ha).credible.inRange
        (show entry.aggregate.count + a.count < 2 ^ 31 by omega))
      hWide

theorem ReachedWith.readings_stateAfter (h : ReachedWith n t) {taken : List Observation}
    (hTaken : observeAll taken t = .ok () t') : readings t'.entries.toList = n + taken.length := by
  rw [readings_observeAll hTaken, h.readings_eq]

/-- Merging stops only for lack of room if there are fewer than 2³¹ readings with those of
the entry it stops at. -/
theorem ReachedWith.exists_mergeFirst (h : ReachedWith n t) (hOther : ReachedWith m other) :
    ∃ k, mergeFirst k other t = .ok () (stateAfter (mergeFrom other) t) ∧
      ∀ fault t', mergeFrom other t = .error fault t' →
        n + readings (other.entries.toList.take (k + 1)) < 2 ^ 31 →
        fault = .tableFull t'.capacity := by
  obtain ⟨k, hTaken, hStops⟩ := exists_absorbAll_take other other.entries.toList t
  refine ⟨k, hTaken, fun fault t' hRefused hFew => ?_⟩
  obtain ⟨entry, hAt, hLast⟩ := hStops fault t' hRefused
  have hState : stateAfter (absorbAll other other.entries.toList) t = t' :=
    stateAfter_of_error hRefused
  have hReached := readings_absorbAll hTaken
  have hBounded : Bounded t' := hState ▸ h.bounded.mergeFrom hOther.bounded
  have hMember : entry ∈ other.entries := Array.mem_toList_iff.mp (List.mem_of_getElem? hAt)
  refine hBounded.eq_tableFull_of_absorb (hOther.bounded entry hMember) hLast ?_
  rw [List.take_add_one, hAt, Option.toList_some, readings_append] at hFew
  rw [← hState, hReached, h.readings_eq]
  simpa [readings, Int.add_assoc] using hFew

/-- Fewer than 2³¹ observations in all, added to a new table by calls that succeed or fail.
Each aggregate has narrow bounds, so no value on the way to its mean runs over. Nor does
anything run over when one more reading or an aggregate of another such table is added, as long
as there are fewer than 2³¹ observations in all. So up to that number a call that ends on a
fault does so for lack of room. -/
theorem ReachedWith.runs_over_nothing (h : ReachedWith n t) (hFew : n < 2 ^ 31) :
    (∀ station ∈ t.stations, station.aggregate.Narrow ∧ station.aggregate.MeanFits ∧
      (∀ value : Int, value.natAbs ≤ 999 → n + 1 < 2 ^ 31 →
        station.aggregate.add value = .ok (station.aggregate.join (.single value)) ∧
          (station.aggregate.join (.single value)).Narrow) ∧
      ∀ {m : Int} {other : Table hash}, ReachedWith m other → n + m < 2 ^ 31 →
        ∀ added ∈ other.stations,
        station.aggregate.merge added.aggregate = .ok (station.aggregate.join added.aggregate) ∧
          (station.aggregate.join added.aggregate).Narrow) ∧
    (∀ (rows : Bytes) (len : Nat), ∃ taken,
      observeAll taken t = .ok () (stateAfter (addRows rows len) t) ∧
      ∀ fault t', addRows rows len t = .error (.fault fault) t' → n + taken.length + 1 < 2 ^ 31 →
        fault = .tableFull t'.capacity) ∧
    (∀ (source : Source) (segment : Segment) (buffer : Bytes), ∃ taken,
      observeAll taken t = .ok () (stateAfter (addReads source segment buffer) t) ∧
        ∀ fault t', addReads source segment buffer t = .error (.fault fault) t' →
          n + taken.length + 1 < 2 ^ 31 →
          fault = .tableFull t'.capacity) ∧
    ∀ {m : Int} {other : Table hash}, ReachedWith m other →
      ∃ k, mergeFirst k other t = .ok () (stateAfter (mergeFrom other) t) ∧
        ∀ fault t', mergeFrom other t = .error fault t' →
          n + readings (other.entries.toList.take (k + 1)) < 2 ^ 31 →
            fault = .tableFull t'.capacity := by
  refine ⟨fun station hStation => ?_, fun rows len => ?_, fun source segment buffer => ?_,
    h.exists_mergeFirst⟩
  · obtain ⟨hBounded, hCount⟩ := h.bounded_of_mem hStation
    have hNarrow := hBounded.narrow (hCount.trans_lt hFew)
    refine ⟨hNarrow, hNarrow.meanFits, fun value hValue hOneMore => ?_,
      fun hOther hBoth added hAdded => ?_⟩
    · refine hBounded.merge_eq (Aggregate.bounded_single hValue) ?_
      simp only [Aggregate.single]
      omega
    · obtain ⟨hAddedBounded, hAddedCount⟩ := hOther.bounded_of_mem hAdded
      exact hBounded.merge_eq hAddedBounded (by omega)
  · obtain ⟨taken, hTaken⟩ := exists_observeAll_addRows t rows len
    refine ⟨taken, hTaken, fun fault t' hFault hOneMore => ?_⟩
    obtain ⟨key, hReason⟩ := h.bounded.refuses_of_addRows hFault
    have hState := stateAfter_of_error hFault
    exact (hState ▸ h.bounded.addRows rows len).eq_tableFull hReason
      (by rwa [← hState, h.readings_stateAfter hTaken])
  · obtain ⟨taken, hTaken⟩ := exists_observeAll_addReads t source segment buffer
    refine ⟨taken, hTaken, fun fault t' hFault hOneMore => ?_⟩
    obtain ⟨key, hReason⟩ := h.bounded.refuses_of_addReads hFault
    have hState := stateAfter_of_error hFault
    exact (hState ▸ h.bounded.addReads source segment buffer).eq_tableFull hReason
      (by rwa [← hState, h.readings_stateAfter hTaken])

/-- A table with one station and as many readings as can be counted. -/
theorem runs_over_nothing_at_last_count :
    ∃ t : Table KeyHash.fnv1a, ReachedWith 2147483647 t ∧ (2147483647 : Int) < 2 ^ 31 ∧
      ∃ station ∈ t.stations, station.aggregate.count = 2147483647 ∧
        station.aggregate.MeanFits := by
  obtain ⟨hTerminated, hReads⟩ := reads_replicate isRow_one_byte 2147483647
  obtain ⟨t, hReached, hStations, -⟩ :=
    exists_reachedWith_of_reads (show withCapacity 9 = .ok _ from rfl)
    (by decide) hTerminated hReads (roomFor_replicate KeyHash.fnv1a _ (by decide))
  rw [List.length_replicate] at hReached
  rw [Listing.replay_replicate] at hStations
  have hListed := hStations ▸ List.mem_singleton_self _
  exact ⟨t, hReached, by decide, _, hListed, by simp,
    ((hReached.runs_over_nothing (by decide)).1 _ hListed).2.1⟩

end Table

end StationStats
