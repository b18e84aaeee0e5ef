import StationStats.Proofs.Station.Merge
import StationStats.Proofs.Station.Report

/-!
Tables that are put together from others. Observations can be spread over any number of tables, in
any order, and these can be merged in any order and nesting: what is got from the last table, and
the report on it, are those of one table to which the observations were added one after the other.
Only the order of the listing may differ.
-/

namespace StationStats

/-- How a table is put together: its own observations are added to a new table, or one table
is merged into another. -/
inductive Assembly where
  | table (wanted : Nat) (observations : List Observation)
  | merge (into other : Assembly)

namespace Assembly

/-- All observations that go into the table. -/
def observations : Assembly → List Observation
  | table _ observations => observations
  | merge into other => into.observations ++ other.observations

/-- The number of stations there is room for: merging keeps the size of the
table that is merged into. -/
def slots : Assembly → Nat
  | table wanted _ =>
    match TableSize.atLeast wanted with
    | .ok size => size.slots.toNat
    | .error _ => 0
  | merge into _ => into.slots

/-- The number of different stations that come into the table. -/
def different (assembly : Assembly) :
    Nat := (assembly.observations.map Observation.name).dedup.length

/-- No table is larger than the largest but two, and each has room for the
stations that come into it. -/
def HasRoom : Assembly → Prop
  | table wanted observations =>
    wanted ≤ 142069021 ∧ (table wanted observations).different ≤ (table wanted observations).slots
  | merge into other => into.HasRoom ∧ other.HasRoom ∧ (merge into other).different ≤ into.slots

/-- A new table to which observations are added in order. -/
def fill (hash : KeyHash) (wanted : Nat) (observations : List Observation) :
    Except Fault (Table hash) :=
  match Table.withCapacity wanted with
  | .error fault => .error fault
  | .ok start =>
    match Table.observeAll observations start with
    | .ok _ t => .ok t
    | .error fault _ => .error fault

/-- Puts the table together. -/
def run (hash : KeyHash) : Assembly → Except Fault (Table hash)
  | table wanted observations => fill hash wanted observations
  | merge into other =>
    match into.run hash with
    | .error fault => .error fault
    | .ok t =>
      match other.run hash with
      | .error fault => .error fault
      | .ok source =>
        match Table.mergeFrom source t with
        | .ok _ t => .ok t
        | .error fault _ => .error fault

end Assembly

namespace Table

variable {hash : KeyHash} {observations more : List Observation} {size : TableSize}
  {t t' other : Table hash}

/-- No station of recordable observations is counted beyond its field. -/
theorem countOf_replay_lt (hRecords : Recordable observations) (name : List UInt8) :
    Listing.countOf name (Listing.replay observations []) < 2 ^ 31 := by
  have hCount :
      (observations.map Observation.name).count name ≤ (observations.map Observation.name).length :=
    List.count_le_length
  have hFew := hRecords.few
  rw [List.length_map] at hCount
  rw [Listing.replay, Listing.countOf_merge, Listing.countOf_observations, Listing.countOf,
    List.filter_nil, List.map_nil, List.sum_nil]
  omega

theorem length_replay (observations : List Observation) :
    (Listing.replay observations []).length = (observations.map Observation.name).dedup.length := by
  have hNone : (Listing.names []).Nodup := List.nodup_nil
  rw [Listing.replay, Listing.length_merge _ hNone, Listing.names_nil, List.nil_append,
    Listing.names_observations]

/-- The listing of recordable observations fits a table with room for their stations, unless its
keys could outgrow their positions. -/
theorem fits_of_recordable (hRecords : Recordable observations)
    (hStations : (observations.map Observation.name).dedup.length ≤ size.slots.toNat)
    (hPositions : Word.countFor keyBytes * size.slots.toNat ≤ UInt32.size) :
    Fits size (Listing.replay observations []) := by
  have hTallies := Listing.tallies_replay observations
  have hLength : (Listing.names (Listing.replay observations [])).length ≤ size.slots.toNat := by
    rw [Listing.names, List.length_map, length_replay]
    exact hStations
  refine .of_short hLength (countOf_replay_lt hRecords) (fun name hName => ?_) hPositions
  obtain ⟨o, ho, rfl⟩ := List.mem_map.mp ((hTallies.mem_names name).mp hName)
  exact (hRecords.each o ho).short

/-- The table is in good order, has this size, and lists just these observations. -/
structure Records (size : TableSize) (observations : List Observation) (t : Table hash) : Prop
    extends Valid t where
  size_eq : t.size = size
  stations_eq : t.stations = Listing.replay observations []

theorem Records.tallies (h : Records size observations t) :
    Listing.Tallies observations t.stations := by
  rw [h.stations_eq]
  exact Listing.tallies_replay observations

theorem Records.credible (h : Records size observations t) (hRecords : Recordable observations) :
    ∀ station ∈ t.stations, station.aggregate.Credible :=
  fun station hStation => hRecords.credible (h.tallies.summarises station hStation)

theorem Records.count_lt (h : Records size observations t) (hRecords : Recordable observations) :
    ∀ station ∈ t.stations, station.aggregate.count < 2 ^ 31 :=
  fun station hStation => hRecords.count_lt (h.tallies.summarises station hStation)

/-- What some stations add to any listing is what some observations add to it, and each
station can be stored. -/
structure AmountsTo (stations : List Station) (observations : List Observation) : Prop where
  short : ∀ station ∈ stations, station.name.length ≤ keyBytes
  credible : ∀ station ∈ stations, station.aggregate.Credible
  merged : ∀ listing, Listing.merge listing stations = Listing.replay observations listing

theorem amountsTo_observations (hRecords : Recordable observations) :
    AmountsTo (observations.map Observation.station) observations where
  short := List.forall_mem_map.mpr fun o ho => (hRecords.each o ho).short
  credible := List.forall_mem_map.mpr fun o ho => (hRecords.each o ho).credible
  merged _ := rfl

theorem Records.amountsTo (h : Records size observations t) (hRecords : Recordable observations) :
    AmountsTo t.stations observations where
  short _ hStation := h.short_of_mem_names (List.mem_map_of_mem hStation)
  credible := h.credible hRecords
  merged listing := by rw [h.stations_eq, Listing.merge_replay]

/-- What stations bring to a table of observations is what the further observations would bring. -/
theorem Records.merge_eq (h : Records size observations t) {stations : List Station}
    (hAmounts : AmountsTo stations more) :
    Listing.merge t.stations stations = Listing.replay (observations ++ more) [] := by
  rw [hAmounts.merged, h.stations_eq, Listing.replay_append]

/-- What amounts to further observations is taken as long as there is room for all of them. -/
theorem Records.exists_absorbEach (h : Records size observations t) {stations : List Station}
    (hAmounts : AmountsTo stations more) (hRecords : Recordable (observations ++ more))
    (hStations : ((observations ++ more).map Observation.name).dedup.length ≤ size.slots.toNat)
    (hPositions : Word.countFor keyBytes * size.slots.toNat ≤ UInt32.size) :
    ∃ t', absorbEach stations t = .ok () t' ∧ Records size (observations ++ more) t' := by
  -- Room is told from what the table lists in the end, which the observations alone decide.
  have hAll := h.merge_eq hAmounts
  have hFits : Fits t.size (Listing.merge t.stations stations) := by
    rw [hAll, h.size_eq]
    exact fits_of_recordable hRecords hStations hPositions
  have hOld := h.credible (hRecords.of_subperm (List.sublist_append_left observations more).subperm)
  obtain ⟨t', hAdded, hValid, hListing, hSame⟩ :=
    h.toValid.exists_absorbEach hOld hAmounts.short hAmounts.credible hFits
  exact ⟨t', hAdded, hValid, hSame.trans h.size_eq, hListing.trans hAll⟩

theorem records_ofSize (h : size ∈ TableSize.all) : Records size [] (ofSize size : Table hash) where
  toValid := valid_ofSize h
  size_eq := rfl
  stations_eq := stations_ofSize size

theorem Records.exists_observeAll (h : Records size observations t)
    (hRecords : Recordable (observations ++ more))
    (hStations : ((observations ++ more).map Observation.name).dedup.length ≤ size.slots.toNat)
    (hPositions : Word.countFor keyBytes * size.slots.toNat ≤ UInt32.size) :
    ∃ t', observeAll more t = .ok () t' ∧ Records size (observations ++ more) t' := by
  have hMore := hRecords.of_subperm (List.sublist_append_right observations more).subperm
  rw [observeAll_eq fun o ho => (hMore.each o ho).short]
  exact h.exists_absorbEach (amountsTo_observations hMore) hRecords hStations hPositions

theorem Records.exists_mergeFrom (h : Records size observations t) {otherSize : TableSize}
    (hOther : Records otherSize more other) (hRecords : Recordable (observations ++ more))
    (hStations : ((observations ++ more).map Observation.name).dedup.length ≤ size.slots.toNat)
    (hPositions : Word.countFor keyBytes * size.slots.toNat ≤ UInt32.size) :
    ∃ t', mergeFrom other t = .ok () t' ∧ Records size (observations ++ more) t' := by
  have hMore := hRecords.of_subperm (List.sublist_append_right observations more).subperm
  rw [hOther.mergeFrom_eq]
  exact h.exists_absorbEach (hOther.amountsTo hMore) hRecords hStations hPositions

/-- Tables that list the same observations in different orders say the same of each station, and
there is the same report on them. -/
theorem Records.agree (h : Records size observations t) {otherSize : TableSize}
    (hOther : Records otherSize more other) (hSame : observations.Perm more) :
    (∀ name, t.get? name = other.get? name) ∧ t.report = other.report := by
  have hPerm : t.stations.Perm other.stations := (h.tallies.of_perm hSame).perm hOther.tallies
  exact ⟨(h.get?_eq_iff_perm hOther.toValid).mpr hPerm, report_eq_of_perm hPerm h.distinct⟩

/-- Recordable observations lead to a report, or to a name that is no text. -/
theorem Records.report_ne_fault (h : Records size observations t)
    (hRecords : Recordable observations) (fault : Fault) : t.report ≠ .error (.fault fault) := by
  have hCountable : Report.Countable t.stations := ⟨h.credible hRecords, h.count_lt hRecords⟩
  rw [ne_eq, report_error_iff]
  exact hCountable.chars_ne_fault fault

end Table

namespace Assembly

variable {assembly : Assembly} {records : List Observation}

/-- The table is put together, has the size that the assembly says, and lists all observations. -/
theorem exists_run (hash : KeyHash) (hRoom : assembly.HasRoom)
    (hRecords : Recordable assembly.observations) :
    ∃ t size, assembly.run hash = .ok t ∧ Table.Records size assembly.observations t ∧
      size.slots.toNat = assembly.slots ∧
        Word.countFor keyBytes * size.slots.toNat ≤ UInt32.size := by
  induction assembly with
  | table wanted observations =>
      obtain ⟨hWanted, hStations⟩ := hRoom
      obtain ⟨size, hSize, hLeast, hStart, -, hPositions⟩ := Table.exists_withCapacity hash hWanted
      have hSlots : (table wanted observations).slots = size.slots.toNat := by
        simp only [slots, hLeast]
      rw [hSlots] at hStations
      obtain ⟨t, hAdded, hLists⟩ :=
        (Table.records_ofSize hSize).exists_observeAll hRecords hStations hPositions
      exact ⟨t, size, by simp only [run, fill, hStart, hAdded], hLists, hSlots.symm, hPositions⟩
  | merge into other ihInto ihOther =>
      obtain ⟨hInto, hOther, hStations⟩ := hRoom
      obtain ⟨t, size, hRun, hLists, hSlots, hPositions⟩ :=
        ihInto hInto (hRecords.of_subperm (List.sublist_append_left _ _).subperm)
      obtain ⟨source, _, hRunOther, hListsOther, -⟩ :=
        ihOther hOther (hRecords.of_subperm (List.sublist_append_right _ _).subperm)
      rw [← hSlots] at hStations
      obtain ⟨t', hMerged, hLists'⟩ :=
        hLists.exists_mergeFrom hListsOther hRecords hStations hPositions
      exact ⟨t', size, by simp only [run, hRun, hRunOther, hMerged], hLists', hSlots, hPositions⟩

/-- However the observations are spread over tables and these merged, what is got for
each name is what is got from one table with all observations in their order, and there
is the same report on it. -/
theorem run_agrees_with_fill (hash : KeyHash) {wanted : Nat}
    (hSame : assembly.observations.Perm records) (hRecords : Recordable records)
    (hRoom : assembly.HasRoom) (hSingle : (table wanted records).HasRoom) :
    ∃ merged single, assembly.run hash = .ok merged ∧ fill hash wanted records = .ok single ∧
      (∀ name, merged.get? name = single.get? name) ∧ merged.report = single.report ∧
        ∀ fault, single.report ≠ .error (.fault fault) := by
  obtain ⟨merged, _, hRun, hMerged, -⟩ := exists_run hash hRoom (hRecords.of_subperm hSame.subperm)
  obtain ⟨single, _, hFill, hAll, -⟩ := exists_run hash hSingle hRecords
  obtain ⟨hGot, hReport⟩ := hMerged.agree hAll hSame
  exact ⟨merged, single, hRun, hFill, hGot, hReport, hAll.report_ne_fault hRecords⟩

/-- Four readings of two stations, spread over three tables of two sizes that are merged from
the last to the first. -/
theorem run_agrees_with_fill_three_tables :
    ∃ merged single,
      (merge (table 20 [⟨[98], 21⟩])
        (merge (table 9 [⟨[97], -25⟩, ⟨[98], 10⟩]) (table 9 [⟨[97], 999⟩]))).run
        KeyHash.primeMultiply = .ok merged ∧
      fill KeyHash.primeMultiply 2 [⟨[98], 10⟩, ⟨[97], -25⟩, ⟨[98], 21⟩, ⟨[97], 999⟩] = .ok single ∧
      merged.report = single.report := by
  have hSame : (merge (table 20 [⟨[98], 21⟩]) (merge (table 9 [⟨[97], -25⟩, ⟨[98], 10⟩])
      (table 9 [⟨[97], 999⟩]))).observations.Perm [⟨[98], 10⟩, ⟨[97], -25⟩, ⟨[98], 21⟩,
        ⟨[97], 999⟩] := by
    decide
  obtain ⟨merged, single, hRun, hFill, -, hReport, -⟩ :=
    run_agrees_with_fill KeyHash.primeMultiply hSame
    ⟨by decide, by decide⟩
    ⟨⟨by decide, by decide⟩, ⟨⟨by decide, by decide⟩, ⟨by decide, by decide⟩, by decide⟩, by decide⟩
    (show HasRoom (table 2 _) from ⟨by decide, by decide⟩)
  exact ⟨merged, single, hRun, hFill, hReport⟩

end Assembly

end StationStats
