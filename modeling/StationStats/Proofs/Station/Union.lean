import StationStats.Proofs.Station.Assembly

/-!
One table merged into another. The other table holds its readings summed up by stations, and these
go through the slots and chains of a table of another size. All the same they come to what their
observations would have come to one after the other, the order of the listing included. Where the
stations do not all find room, the merge stops where the first of them is turned away.
-/

namespace StationStats

namespace Table

variable {hash : KeyHash} {stations : List Station} {k : Nat} {t other reached between : Table hash}

/-- Adds the readings behind the first `k` entries of `other`. -/
def mergeFirst (k : Nat) (other : Table hash) : EStateM Fault (Table hash) Unit :=
  absorbAll other (other.entries.toList.take k)

/-- Merging some entries of a table in good order is adding the readings of their stations. -/
theorem Valid.mergeFirst_eq (h : Valid other) (k : Nat) (t : Table hash) :
    mergeFirst k other t = absorbEach (other.stations.take k) t := by
  rw [mergeFirst, absorbAll_eq fun entry hEntry =>
    h.stored entry (Array.mem_toList_iff.mp (List.mem_of_mem_take hEntry)), List.map_take, stations]

/-! ### Stations up to one that is turned away -/

/-- Of several stations the first `k` are taken, which leads to the table `reached`, and the next is
the first to be turned away. -/
structure StopsAt (stations : List Station) (t : Table hash) (k : Nat)
    (reached : Table hash) : Prop where
  taken : absorbEach (stations.take k) t = .ok () reached
  turnsAway : ∃ station, stations[k]? = some station ∧ reached.TurnsAway station.name
  first : ∀ j < k, ∃ before station, absorbEach (stations.take j) t = .ok () before ∧
    stations[j]? = some station ∧ ¬ before.TurnsAway station.name
  refused : absorbEach stations t = .error (.tableFull t.capacity) reached

variable {station : Station}

/-- The first station is turned away. -/
theorem StopsAt.of_refused (hAway : t.TurnsAway station.name)
    (hRefused : absorb (Key.packed station.name) (hash (Key.pack station.name))
      station.aggregate t =
      .error (.tableFull t.capacity) t) : StopsAt (station :: stations) t 0 t where
  taken := rfl
  turnsAway := ⟨station, rfl, hAway⟩
  first j hj := absurd hj j.not_lt_zero
  refused := by simp only [absorbEach, hRefused]

/-- The first station is taken, and one of the others turned away. -/
theorem StopsAt.of_taken (hTakes : ¬ t.TurnsAway station.name)
    (hTaken : absorb (Key.packed station.name) (hash (Key.pack station.name)) station.aggregate t =
      .ok () between) (hSize : between.size = t.size) (h : StopsAt stations between k reached) :
    StopsAt (station :: stations) t (k + 1) reached where
  taken := absorbEach_cons_ok_iff.mpr ⟨between, hTaken, h.taken⟩
  turnsAway := h.turnsAway
  first j hj := by
    cases j with
    | zero => exact ⟨t, station, rfl, rfl, hTakes⟩
    | succ j =>
        obtain ⟨before, later, hBefore, hLater, hStill⟩ := h.first j (Nat.lt_of_succ_lt_succ hj)
        exact ⟨before, later, absorbEach_cons_ok_iff.mpr ⟨between, hTaken, hBefore⟩, hLater, hStill⟩
  refused := by
    have hRefused := h.refused
    rw [capacity, hSize] at hRefused
    simp only [absorbEach, hTaken, hRefused, capacity]

/-- Stations that are not counted too often are all taken, or one of them is turned away. -/
theorem Valid.absorbEach_cases (h : Valid t) (hCredible : ∀ station ∈ t.stations,
    station.aggregate.Credible) (hPositions : Word.countFor keyBytes * t.capacity ≤ UInt32.size)
    (hShort : ∀ station ∈ stations, station.name.length ≤ keyBytes)
    (hNew : ∀ station ∈ stations, station.aggregate.Credible)
    (hCounts : ∀ name, Listing.countOf name (Listing.merge t.stations stations) < 2 ^ 31) :
    (∃ t', absorbEach stations t = .ok () t' ∧ Valid t' ∧
      t'.stations = Listing.merge t.stations stations ∧
      t'.size = t.size) ∨ ∃ k reached, StopsAt stations t k reached := by
  induction stations generalizing t with
  | nil => exact Or.inl ⟨t, rfl, h, rfl, rfl⟩
  | cons station rest ih =>
      rw [List.forall_mem_cons] at hShort hNew
      rw [Listing.merge_cons] at hCounts
      -- What is counted in the end bounds what the first station brings.
      have hCount :
          Listing.countOf station.name (Listing.gather station.name station.aggregate t.stations) <
            2 ^ 31 := by
        have hLater : 0 ≤ Listing.countOf station.name rest :=
          Listing.countOf_nonneg fun later hLater => (hNew.2 later hLater).count_pos.le
        have hAll := hCounts station.name
        rw [Listing.countOf_merge] at hAll
        omega
      have hRange := h.inRange_of_countOf_lt hCredible hNew.1 hCount
      rcases h.absorb_cases hShort.1 hRange hPositions with
        ⟨hTakes, between, hTaken, hGathers⟩ | ⟨hAway, hRefused⟩
      · have hStill := hGathers.forall_mem Aggregate.Credible.join hNew.1 hCredible
        rw [← hGathers.stations] at hCounts
        rw [capacity, ← hGathers.size] at hPositions
        rcases ih hGathers.valid hStill hPositions hShort.2 hNew.2 hCounts with
          ⟨t', hRest, hValid, hStations, hSize⟩ | ⟨k, reached, hStops⟩
        · refine Or.inl ⟨t', absorbEach_cons_ok_iff.mpr ⟨between, hTaken, hRest⟩, hValid, ?_,
            hSize.trans hGathers.size⟩
          rw [hStations, hGathers.stations, Listing.merge_cons]
        · exact Or.inr ⟨k + 1, reached, .of_taken hTakes hTaken hGathers.size hStops⟩
      · exact Or.inr ⟨0, t, .of_refused hAway hRefused⟩

/-! ### Tables of observations -/

variable {observations more : List Observation} {size : TableSize}

/-- Stations that amount to further observations are all taken, or one of them is turned away. -/
theorem Records.absorbEach_cases (h : Records size observations t)
    (hAmounts : AmountsTo stations more) (hRecords : Recordable (observations ++ more))
    (hPositions : Word.countFor keyBytes * size.slots.toNat ≤ UInt32.size) :
    (∃ t', absorbEach stations t = .ok () t' ∧ Records size (observations ++ more) t') ∨
      ∃ k reached, StopsAt stations t k reached := by
  have hAll := h.merge_eq hAmounts
  have hOld := h.credible (hRecords.of_subperm (List.sublist_append_left observations more).subperm)
  have hCounts : ∀ name, Listing.countOf name (Listing.merge t.stations stations) < 2 ^ 31 := by
    rw [hAll]
    exact countOf_replay_lt hRecords
  rw [← h.size_eq] at hPositions
  rcases h.toValid.absorbEach_cases hOld hPositions hAmounts.short hAmounts.credible hCounts with
    ⟨t', hAdded, hValid, hListing, hSame⟩ | hStops
  · exact Or.inl ⟨t', hAdded, hValid, hSame.trans h.size_eq, hListing.trans hAll⟩
  · exact Or.inr hStops

/-- A table that takes observations has room for their stations. -/
theorem Records.length_dedup_le (h : Records size observations t) :
    (observations.map Observation.name).dedup.length ≤ t.capacity := by
  rw [← length_replay, ← h.stations_eq, length_stations]
  exact h.toValid.length_le

/-- If a new table takes observations, it lists just these. -/
theorem exists_records_of_fill {wanted : Nat} (hWanted : wanted ≤ 142069021)
    (hRecords : Recordable observations)
    (hFilled : Assembly.fill hash wanted observations = .ok t) :
    ∃ size, TableSize.atLeast wanted = .ok size ∧ Records size observations t ∧
      Word.countFor keyBytes * size.slots.toNat ≤ UInt32.size := by
  obtain ⟨size, hSize, hLeast, hStart, -, hPositions⟩ := exists_withCapacity hash hWanted
  refine ⟨size, hLeast, ?_, hPositions⟩
  rw [Assembly.fill, hStart] at hFilled
  simp only [observeAll_eq fun o ho => (hRecords.each o ho).short] at hFilled
  rcases (records_ofSize hSize).absorbEach_cases (amountsTo_observations hRecords) hRecords
    hPositions with ⟨t', hAdded, hLists⟩ | ⟨k, reached, hStops⟩
  · rw [hAdded] at hFilled
    exact Except.ok.inj hFilled ▸ hLists
  · rw [hStops.refused] at hFilled
    cases hFilled

/-- A merge of one table of observations into another. If there is room for all their stations, what
it leads to lists what any table lists that took the observations of the first and then those of the
second, in the same order. If there is not, the merge ends at the first station of the other table
that comes new to the full table, with the stations before it merged. The other table is only read:
it is no part of the state that is left behind. -/
theorem mergeFrom_replays_or_stops (hash : KeyHash) (hRecords : Recordable (observations ++ more))
    {wanted wantedOther : Nat} (hWanted : wanted ≤ 142069021)
    (hWantedOther : wantedOther ≤ 142069021)
    {t other : Table hash} (hFilled : Assembly.fill hash wanted observations = .ok t)
    (hFilledOther : Assembly.fill hash wantedOther more = .ok other) :
    (((observations ++ more).map Observation.name).dedup.length ≤ t.capacity →
      ∃ merged, mergeFrom other t = .ok () merged ∧
        (∃ single, Assembly.fill hash wanted (observations ++ more) = .ok single) ∧
        ∀ least single, least ≤ 142069021 →
          Assembly.fill hash least (observations ++ more) = .ok single →
          merged.stations = single.stations) ∧
    (t.capacity < ((observations ++ more).map Observation.name).dedup.length →
      ∃ k reached, StopsAt other.stations t k reached ∧ mergeFirst k other t = .ok () reached ∧
        mergeFrom other t = .error (.tableFull t.capacity) reached) := by
  have hFirst := hRecords.of_subperm (List.sublist_append_left observations more).subperm
  have hSecond := hRecords.of_subperm (List.sublist_append_right observations more).subperm
  obtain ⟨size, hLeast, hLists, hPositions⟩ := exists_records_of_fill hWanted hFirst hFilled
  obtain ⟨_, -, hListsOther, -⟩ := exists_records_of_fill hWantedOther hSecond hFilledOther
  have hCapacity : t.capacity = size.slots.toNat := by rw [capacity, hLists.size_eq]
  constructor
  · intro hRoom
    rw [hCapacity] at hRoom
    obtain ⟨merged, hMerged, hAll⟩ := hLists.exists_mergeFrom hListsOther hRecords hRoom hPositions
    have hSlots : (Assembly.table wanted (observations ++ more)).slots = size.slots.toNat := by
      simp only [Assembly.slots, hLeast]
    have hSingleRoom : (Assembly.table wanted (observations ++ more)).HasRoom :=
      ⟨hWanted, hSlots.symm ▸ hRoom⟩
    obtain ⟨single, -, hSingle, -⟩ := Assembly.exists_run hash hSingleRoom hRecords
    refine ⟨merged, hMerged, ⟨single, hSingle⟩, ?_⟩
    intro least single hEnough hSingle
    obtain ⟨_, -, hListsSingle, -⟩ := exists_records_of_fill hEnough hRecords hSingle
    exact hAll.stations_eq.trans hListsSingle.stations_eq.symm
  · intro hFull
    rcases hLists.absorbEach_cases (hListsOther.amountsTo hSecond) hRecords hPositions with
      ⟨merged, -, hAll⟩ | ⟨k, reached, hStops⟩
    · have hHeld := hAll.length_dedup_le
      rw [capacity, hAll.size_eq, ← hCapacity] at hHeld
      exact absurd hHeld hFull.not_ge
    · refine ⟨k, reached, hStops, ?_, ?_⟩
      · rw [hListsOther.mergeFirst_eq]
        exact hStops.taken
      · rw [hListsOther.mergeFrom_eq]
        exact hStops.refused

/-- A table of nine slots holds eight stations, and one station comes again. With one more station
there is still room, with two the merge stops. -/
theorem mergeFrom_replays_or_stops_at_tenth_name :
    ∃ t other larger : Table fun _ => 0,
      Assembly.fill _ 9 ((List.range 8).map fun n => ⟨List.replicate n 0, n⟩) = .ok t ∧
      Assembly.fill _ 20 [⟨[0], 10⟩, ⟨List.replicate 8 0, -5⟩] = .ok other ∧
      Assembly.fill _ 20 [⟨[0], 10⟩, ⟨List.replicate 8 0, -5⟩, ⟨List.replicate 9 0, 7⟩] =
        .ok larger ∧
      (∃ merged, mergeFrom other t = .ok () merged) ∧
      ∃ reached, mergeFrom larger t = .error (.tableFull 9) reached := by
  have hNine : 9 ≤ 142069021 := by decide
  have hTwenty : 20 ≤ 142069021 := by decide
  have hRecords :
      Recordable ((List.range 8).map (fun n => (⟨List.replicate n 0, n⟩ : Observation)) ++
      [⟨[0], 10⟩, ⟨List.replicate 8 0, -5⟩, ⟨List.replicate 9 0, 7⟩]) := ⟨by decide, by decide⟩
  have hFewer : Recordable ((List.range 8).map (fun n => (⟨List.replicate n 0, n⟩ : Observation)) ++
      [⟨[0], 10⟩, ⟨List.replicate 8 0, -5⟩]) := ⟨by decide, by decide⟩
  have hFirst := hRecords.of_subperm (List.sublist_append_left _ _).subperm
  obtain ⟨t, _, hFilled, -⟩ : ∃ t : Table fun _ => 0, _ :=
    Assembly.exists_run _ (show Assembly.HasRoom (.table 9 _) from ⟨hNine, by decide⟩) hFirst
  obtain ⟨other, _, hFilledOther, -⟩ : ∃ other : Table fun _ => 0, _ :=
    Assembly.exists_run _ (show Assembly.HasRoom (.table 20 _) from ⟨hTwenty, by decide⟩)
      (hFewer.of_subperm (List.sublist_append_right _ _).subperm)
  obtain ⟨larger, _, hFilledLarger, -⟩ : ∃ larger : Table fun _ => 0, _ :=
    Assembly.exists_run _ (show Assembly.HasRoom (.table 20 _) from ⟨hTwenty, by decide⟩)
      (hRecords.of_subperm (List.sublist_append_right _ _).subperm)
  obtain ⟨size, hLeast, hLists, -⟩ := exists_records_of_fill hNine hFirst hFilled
  have hCapacity : t.capacity = 9 := by
    cases (show TableSize.atLeast 9 = .ok ⟨9, 0x38e38e39, 1⟩ from rfl).symm.trans hLeast
    rw [capacity, hLists.size_eq]
    rfl
  obtain ⟨merged, hMerged, -⟩ :=
    (mergeFrom_replays_or_stops _ hFewer hNine hTwenty hFilled hFilledOther).1
      (hCapacity.symm ▸ by decide)
  obtain ⟨_, reached, -, -, hRefused⟩ :=
    (mergeFrom_replays_or_stops _ hRecords hNine hTwenty hFilled hFilledLarger).2
      (hCapacity.symm ▸ by decide)
  rw [hCapacity] at hRefused
  exact ⟨t, other, larger, hFilled, hFilledOther, hFilledLarger, ⟨merged, hMerged⟩, reached,
    hRefused⟩

end Table

end StationStats
