import StationStats.Proofs.Row.Acceptance
import StationStats.Proofs.Station.Report

/-!
The tables of a run. A table holds the observations that were added to it, wherever they were added
first and however the tables were merged, and its report is the report on these observations.
-/

namespace StationStats.Table

variable {hash : KeyHash} {observations more : List Observation} {t t' other : Table hash}

/-- The size of the tables of a run. -/
def runSize : TableSize := ⟨12973, 0x1434f6d3, 10⟩

/-- The tables of a run have room for a few more stations than they have to. -/
theorem withCapacity_stationCount :
    (withCapacity stationCount : Except Fault (Table hash)) = .ok (ofSize runSize) :=
  rfl

/-- The observations are among those that one table of a run can hold. -/
structure Manageable (observations : List Observation) : Prop where
  stations : (observations.map Observation.name).dedup.length ≤ runSize.slots.toNat
  counts : observations.length < 2 ^ 31
  legal : ∀ o ∈ observations, o.name.length ≤ longestName ∧ o.tenths.natAbs ≤ 999

/-- The table has the size of those of a run, is in good order, and lists just these
observations. -/
structure Holds (observations : List Observation) (t : Table hash) : Prop extends Regular t where
  size : t.size = runSize
  stations : t.stations = Listing.replay observations []

theorem length_dedup_le {first second : List (List UInt8)} (h : first ⊆ second) :
    first.dedup.length ≤ second.dedup.length :=
  (List.nodup_dedup first).length_le_of_subset
    (List.Subset.trans (List.dedup_subset first) (List.Subset.trans h (List.subset_dedup second)))

/-- Observations of some of these names, each taken at most as often as it stands there. -/
theorem Manageable.of_names {names : List (List UInt8)}
    (hStations : names.dedup.length ≤ runSize.slots.toNat)
    (hCounts : names.length < 2 ^ 31) (hNames : (more.map Observation.name).Sublist names)
    (hLegal : ∀ o ∈ more, o.name.length ≤ longestName ∧ o.tenths.natAbs ≤ 999) :
    Manageable more where
  stations := (length_dedup_le hNames.subset).trans hStations
  counts := by
    have hLength := hNames.length_le
    rw [List.length_map] at hLength
    exact hLength.trans_lt hCounts
  legal := hLegal

theorem Manageable.of_sublist (h : Manageable observations) (hMore : more.Sublist observations) :
    Manageable more :=
  .of_names h.stations (by rw [List.length_map]; exact h.counts) (hMore.map _) fun o ho =>
    h.legal o (hMore.subset ho)

theorem holds_nil : Holds [] (ofSize runSize : Table hash) where
  toRegular := regular_of_withCapacity withCapacity_stationCount
  size := rfl
  stations := stations_ofSize runSize

theorem Holds.capacity_le (h : Holds observations t) : t.capacity ≤ 294594427 := by
  rw [capacity, h.size]
  decide

/-- What is manageable fits. -/
theorem Manageable.fits (h : Manageable observations) :
    Fits runSize (Listing.replay observations []) := by
  have hRoom : RoomFor (ofSize runSize : Table KeyHash.fnv1a) (observations.map Observation.name) :=
    roomFor_ofSize h.stations (by rw [List.length_map]; exact h.counts)
  have hPositions := holds_nil.hasPositionsFor holds_nil.capacity_le
    (List.forall_mem_map.mpr fun o ho => (h.legal o ho).1) hRoom
  have hFits := holds_nil.fits_replay hRoom hPositions
  rwa [stations_ofSize] at hFits

/-! ### Adding observations -/

theorem Holds.observeAll (h : Holds observations t)
    (hLegal : ∀ o ∈ more, o.name.length ≤ longestName ∧ o.tenths.natAbs ≤ 999)
    (hAdded : observeAll more t = .ok () t') : Holds (observations ++ more) t' := by
  obtain ⟨hRegular, hStations, hSize⟩ := h.of_observeAll h.capacity_le hLegal hAdded
  exact
    { toRegular := hRegular
      size := hSize.trans h.size
      stations := by rw [hStations, h.stations, Listing.replay_append] }

theorem Holds.exists_observeAll (h : Holds observations t)
    (hManageable : Manageable (observations ++ more)) :
    ∃ t', Table.observeAll more t = .ok () t' := by
  have hLegal : ∀ o ∈ more, o.name.length ≤ longestName ∧ o.tenths.natAbs ≤ 999 := fun o ho =>
    hManageable.legal o (List.mem_append_right _ ho)
  have hFits := hManageable.fits
  rw [Listing.replay_append, ← h.stations, ← h.size, Listing.replay] at hFits
  obtain ⟨t', hAdded, -⟩ := h.exists_absorbEach h.credible
    (List.forall_mem_map.mpr fun o ho => (hLegal o ho).1.trans longestName_lt.le)
    (List.forall_mem_map.mpr fun o ho => (Aggregate.bounded_single (hLegal o ho).2).credible) hFits
  exact ⟨t', by rw [observeAll_eq fun o ho => (hLegal o ho).1.trans longestName_lt.le, hAdded]⟩

/-! ### Merging -/

theorem Holds.mergeFrom (h : Holds observations t) (hOther : Holds more other)
    (hMerged : mergeFrom other t = .ok () t') : Holds (observations ++ more) t' := by
  rw [hOther.mergeFrom_eq] at hMerged
  obtain ⟨hRegular, hStations, hSize⟩ := h.of_absorbEach h.capacity_le
    (fun station hStation => hOther.short_names _ (List.mem_map_of_mem hStation)) hOther.bounded
      hMerged
  exact
    { toRegular := hRegular
      size := hSize.trans h.size
      stations := by
        rw [hStations, hOther.stations, h.stations, Listing.merge_replay, Listing.replay_append] }

theorem Holds.exists_mergeFrom (h : Holds observations t) (hOther : Holds more other)
    (hManageable : Manageable (observations ++ more)) :
    ∃ t', Table.mergeFrom other t = .ok () t' := by
  have hFits := hManageable.fits
  rw [Listing.replay_append, ← Listing.merge_replay, ← hOther.stations, ← h.stations,
    ← h.size] at hFits
  obtain ⟨t', hMerged, -⟩ := h.exists_absorbEach h.credible
    (fun station hStation => (hOther.short_names _ (List.mem_map_of_mem hStation)).trans
      longestName_lt.le)
    hOther.credible hFits
  exact ⟨t', by rw [hOther.mergeFrom_eq, hMerged]⟩

/-! ### The report -/

/-- A table holds no more stations than it has slots. -/
theorem Holds.length_dedup_le (h : Holds observations t) :
    (observations.map Observation.name).dedup.length ≤ runSize.slots.toNat := by
  have hNone : (Listing.names []).Nodup := List.nodup_nil
  have hLength := h.length_le
  rw [← length_stations, h.stations, Listing.replay, Listing.length_merge _ hNone,
    Listing.names_observations, capacity, h.size] at hLength
  exact hLength

theorem Holds.report_ok_iff (h : Holds observations t)
    (hLegal : ∀ o ∈ observations, o.name.length ≤ longestName ∧ o.tenths.natAbs ≤ 999)
    (hCount : observations.length < 2 ^ 31) {text : String} :
    t.report = .ok text ↔ Report.IsReport observations text := by
  have hTallies : Listing.Tallies observations t.stations := by
    rw [h.stations]
    exact Listing.tallies_replay observations
  rw [← Report.chars_ok_iff_isReport hTallies (fun o ho => (hLegal o ho).2.trans (by decide))
    hCount, Table.report_ok_iff]

end StationStats.Table
