import StationStats.Proofs.File.Reached

/-!
When a range of rows is accepted, said about its lines alone: each of them has to be well-formed,
and the table must have room for their stations and their readings, and positions for the words of
their names.
-/

namespace StationStats.Table

variable {hash : KeyHash} {t : Table hash} {names : List (List UInt8)}

/-- The table has room for one more reading of each of these stations: there are not too many
different ones, and no count reaches 2³¹. -/
structure RoomFor (t : Table hash) (names : List (List UInt8)) : Prop where
  stations : (t.names ++ names).dedup.length ≤ t.capacity
  counts : ∀ name, Listing.countOf name t.stations + names.count name < 2 ^ 31

/-- The words that the table holds have positions, and so have those of all different names if these
are added. -/
structure HasPositionsFor (t : Table hash) (names : List (List UInt8)) : Prop where
  held : t.keys.size ≤ UInt32.size
  all : wordsOf (t.names ++ names).dedup ≤ UInt32.size

/-- An empty table has room for fewer than 2³¹ readings of no more stations than it has slots. -/
theorem roomFor_ofSize {size : TableSize} (hStations : names.dedup.length ≤ size.slots.toNat)
    (hCounts : names.length < 2 ^ 31) : RoomFor (ofSize size : Table hash) names where
  stations := by
    rw [Table.names, stations_ofSize]
    exact hStations
  counts name := by
    have hCount : names.count name ≤ names.length := List.count_le_length
    rw [stations_ofSize, Listing.countOf, List.filter_nil, List.map_nil, List.sum_nil]
    omega

/-- Unless the size of the table is the largest one, all names of rows that there is room for have
positions. -/
theorem Regular.hasPositionsFor (h : Regular t) (hCapacity : t.capacity ≤ 294594427)
    (hShort : ∀ name ∈ names, name.length ≤ longestName) (hRoom : RoomFor t names) :
    t.HasPositionsFor names := by
  have hFits {names : List (List UInt8)} (hShort : ∀ name ∈ names, name.length ≤ longestName)
      (hLength : names.length ≤ t.capacity) : wordsOf names ≤ UInt32.size :=
    calc wordsOf names ≤ nameWords * names.length := wordsOf_le hShort
      _ ≤ nameWords * 294594427 := Nat.mul_le_mul_left nameWords (hLength.trans hCapacity)
      _ ≤ UInt32.size := by decide
  constructor
  · rw [h.keys_size]
    exact hFits h.short_names (length_names t ▸ h.length_le)
  · refine hFits (fun name hName => ?_) hRoom.stations
    rw [List.mem_dedup, List.mem_append] at hName
    exact hName.elim (h.short_names name) (hShort name)

/-- With room and positions for the observations the listing that they lead to fits. -/
theorem Regular.fits_replay (h : Regular t) {observations : List Observation}
    (hRoom : RoomFor t (observations.map Observation.name))
    (hPositions : t.HasPositionsFor (observations.map Observation.name)) :
    Fits t.size (Listing.replay observations t.stations) := by
  have hPerm : (Listing.names (Listing.replay observations t.stations)).Perm
      (t.names ++ observations.map Observation.name).dedup := by
    rw [← Listing.names_observations]
    exact Listing.names_merge_perm _ h.distinct
  constructor
  · have hStations := hRoom.stations
    rwa [← hPerm.length_eq, Listing.names, List.length_map] at hStations
  · intro name
    rw [Listing.replay, Listing.countOf_merge, Listing.countOf_observations]
    exact hRoom.counts name
  · rw [wordsOf, (hPerm.map _).sum_nat]
    exact hPositions.all

/-- Observations that there is room for are added. -/
theorem Regular.exists_observeAll (h : Regular t) {observations : List Observation}
    (hObservations : ∀ o ∈ observations, o.name.length ≤ longestName ∧ o.tenths.natAbs ≤ 999)
    (hRoom : RoomFor t (observations.map Observation.name))
    (hPositions : t.HasPositionsFor (observations.map Observation.name)) :
    ∃ t', observeAll observations t = .ok () t' ∧
      t'.stations = Listing.replay observations t.stations := by
  have hShort : ∀ o ∈ observations, o.name.length ≤ keyBytes := fun o ho =>
    (hObservations o ho).1.trans longestName_lt.le
  have hCredible : ∀ o ∈ observations, o.station.aggregate.Credible := fun o ho =>
    (Aggregate.bounded_single (hObservations o ho).2).credible
  obtain ⟨t', hAdded, -, hStations, -⟩ := h.exists_absorbEach h.credible
    (List.forall_mem_map.mpr hShort) (List.forall_mem_map.mpr hCredible)
    (h.fits_replay hRoom hPositions)
  exact ⟨t', by rw [observeAll_eq hShort, hAdded], hStations⟩

/-- Unless the size of the table is the largest one, room is all that they need. -/
theorem Regular.exists_observeAll_of_capacity (h : Regular t) (hCapacity : t.capacity ≤ 294594427)
    {observations : List Observation}
    (hObservations : ∀ o ∈ observations, o.name.length ≤ longestName ∧ o.tenths.natAbs ≤ 999)
    (hRoom : RoomFor t (observations.map Observation.name)) :
    ∃ t', observeAll observations t = .ok () t' ∧
      t'.stations = Listing.replay observations t.stations := by
  have hShort : ∀ name ∈ observations.map Observation.name, name.length ≤ longestName :=
    List.forall_mem_map.mpr fun o ho => (hObservations o ho).1
  exact h.exists_observeAll hObservations hRoom (h.hasPositionsFor hCapacity hShort hRoom)

/-- Observations that are added to a table of any other size than the largest one lead to a table in
good order. -/
theorem Regular.of_observeAll (h : Regular t) (hCapacity : t.capacity ≤ 294594427)
    {observations : List Observation}
    (hObservations : ∀ o ∈ observations, o.name.length ≤ longestName ∧ o.tenths.natAbs ≤ 999)
    {t' : Table hash} (hAdded : observeAll observations t = .ok () t') :
    Regular t' ∧ t'.stations = Listing.replay observations t.stations ∧ t'.size = t.size := by
  rw [observeAll_eq fun o ho => (hObservations o ho).1.trans longestName_lt.le] at hAdded
  exact h.of_absorbEach hCapacity (List.forall_mem_map.mpr fun o ho => (hObservations o ho).1)
    (List.forall_mem_map.mpr fun o ho => Aggregate.bounded_single (hObservations o ho).2) hAdded

/-- The range of rows is accepted exactly if each line of it is well-formed. -/
def AcceptsLines (t : Table hash) (rows : Bytes) (len : Nat) : Prop :=
  (∃ t', addRows rows len t = .ok () t') ↔ ∀ line ∈ lines (rows.toList.take len), ∃ o, IsRow line o

/-- A range of whole rows with enough bytes behind it is accepted exactly if each line of it is
well-formed, as long as there is room for what the lines say and there are positions for the names
if all lines are well-formed. The bytes behind the range do not matter, whatever they are. -/
theorem Regular.acceptsLines (h : Regular t) {rows : Bytes} {len : Nat}
    (hSlack : len + slack ≤ rows.size) (hTerminated : Terminated (rows.toList.take len))
    (hRoom : RoomFor t ((lines (rows.toList.take len)).map nameOf))
    (hPositions : (∀ name ∈ (lines (rows.toList.take len)).map nameOf, name.length ≤ longestName) →
      t.HasPositionsFor ((lines (rows.toList.take len)).map nameOf)) :
    AcceptsLines t rows len := by
  constructor
  · rintro ⟨t', hAdded⟩
    obtain ⟨observations, hReads, -⟩ := (addRows_ok_iff hSlack hTerminated).mp hAdded
    exact exists_reads_iff.mp ⟨observations, hReads⟩
  · intro hLines
    obtain ⟨observations, hReads⟩ := exists_reads_iff.mpr hLines
    have hLegal := hReads.forall_mem
    rw [← hReads.names_eq] at hRoom hPositions
    obtain ⟨t', hAdded, -⟩ := h.exists_observeAll hLegal hRoom
      (hPositions (List.forall_mem_map.mpr fun o ho => (hLegal o ho).1))
    exact ⟨t', (addRows_ok_iff hSlack hTerminated).mpr ⟨observations, hReads, hAdded⟩⟩

end StationStats.Table
