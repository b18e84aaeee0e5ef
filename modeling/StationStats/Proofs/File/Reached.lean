import StationStats.File.Stream
import StationStats.Proofs.Row.Rows
import StationStats.Proofs.Station.Positions

/-!
The tables that can come about: from an empty one by adding rows, adding the rows of segments and
merging, whether or not any of this fails. Each of these adds readings one after the other, so what
one addition keeps all of them keep.
-/

namespace StationStats

namespace Table

variable {hash : KeyHash} {t : Table hash}

/-- The tables that can come about. Any of them can be merged into any other, even one whose words
have outgrown their positions. -/
inductive Reached : Table hash → Prop where
  | start {wanted : Nat} {t : Table hash} (h : withCapacity wanted = .ok t) : Reached t
  | rows {t : Table hash} (h : Reached t) (rows : Bytes) (len : Nat) :
      Reached (stateAfter (addRows rows len) t)
  | reads {t : Table hash} (h : Reached t) (source : Source) (segment : Segment) (buffer : Bytes) :
      Reached (stateAfter (addReads source segment buffer) t)
  | merge {t other : Table hash} (h : Reached t) (hOther : Reached other) :
      Reached (stateAfter (mergeFrom other) t)

/-! ### What all of these keep -/

section Preserved

variable {P : Table hash → Prop}

theorem of_add_error {key : Key} {value : Int} {fault : Fault} {t t' : Table hash} (h : P t)
    (hRefused : add key value t = .error fault t') : P t' :=
  eq_of_absorb_error hRefused ▸ h

/-- What adding an observation keeps, adding rows keeps, whatever these hold. -/
theorem addRowsFrom_preserves
    (hAdd : ∀ name tenths t t', name.length ≤ longestName → tenths.natAbs ≤ 999 → P t →
      add (Key.packed name) tenths t = .ok () t' → P t')
    (rows : Bytes) (len start : Nat) (h : P t) : P (stateAfter (addRowsFrom rows len start) t) := by
  have hRow (row : Row) {start : Nat} (hScan : Row.scan rows start = .ok row) (t t' : Table hash)
      (h : P t) (hAdded : add row.key row.reading.tenths t = .ok () t') : P t' := by
    obtain ⟨text, behind, o, -, hText, rfl⟩ := Row.exists_isRow_of_scan hScan
    cases hText with
    | mk hLength _ _ hReading => exact hAdd _ _ t t' hLength hReading.natAbs_le h hAdded
  rw [stateAfter]
  fun_induction addRowsFrom rows len start t with
  | case1 => exact h
  | case2 start t _ row hScan fault t' hRefused => exact of_add_error h hRefused
  | case3 start t _ row hScan _ t' hAdded _ ih => exact ih (hRow row hScan t t' h hAdded)
  | case4 start t _ row hScan _ t' hAdded _ => exact hRow row hScan t t' h hAdded
  | case5 => exact h

theorem addRows_preserves
    (hAdd : ∀ name tenths t t', name.length ≤ longestName → tenths.natAbs ≤ 999 → P t →
      add (Key.packed name) tenths t = .ok () t' → P t')
    (rows : Bytes) (len : Nat) (h : P t) : P (stateAfter (addRows rows len) t) := by
  have hRows := addRowsFrom_preserves hAdd rows len 0 h
  rw [stateAfter] at hRows ⊢
  rw [addRows]
  by_cases hSlack : len + slack ≤ rows.size
  · rw [if_pos hSlack]
    exact hRows
  · rw [if_neg hSlack]
    exact h

/-- What adding an observation keeps, adding segments keeps, whatever the source delivers. -/
theorem addReads_preserves
    (hAdd : ∀ name tenths t t', name.length ≤ longestName → tenths.natAbs ≤ 999 → P t →
      add (Key.packed name) tenths t = .ok () t' → P t')
    (source : Source) (segment : Segment) (buffer : Bytes) (h : P t) :
    P (stateAfter (addReads source segment buffer) t) := by
  have hPiece {buffer : Bytes} {whole : Nat} {t : Table hash} (h : P t) :
      P (stateAfter (addRows buffer whole) t) := addRows_preserves hAdd buffer whole h
  have hFrom (offset carried calls : Nat) (buffer : Bytes) :
      P (stateAfter (addReadsFrom source segment offset carried calls buffer) t) := by
    rw [stateAfter]
    fun_induction addReadsFrom source segment offset carried calls buffer t with
    | case1 => exact h
    | case2 => exact h
    | case3 offset carried calls buffer t _ _ _ bytes _ _ _ _ _ halt t' hRefused =>
        exact stateAfter_of_error hRefused ▸ hPiece h
    | case4 offset carried calls buffer t _ _ _ bytes _ _ _ _ _ _ t' hAdded _ _ ih =>
        exact ih (stateAfter_of_ok hAdded ▸ hPiece h)
    | case5 offset carried calls buffer t _ _ _ bytes _ _ _ _ _ _ t' hAdded _ _ =>
        exact stateAfter_of_ok hAdded ▸ hPiece h
    | case6 => exact h
    | case7 => exact h
  have hWhole := hFrom segment.offset 0 0 buffer
  rw [stateAfter] at hWhole ⊢
  rw [addReads]
  by_cases hRoom : slack < buffer.size
  · rw [if_pos hRoom]
    exact hWhole
  · rw [if_neg hRoom]
    exact h

end Preserved

/-! ### Readings -/

/-- Every entry sums up readings between -99.9 and 99.9. -/
def Bounded (t : Table hash) : Prop := ∀ entry ∈ t.entries, entry.aggregate.Bounded

theorem Bounded.absorb {t t' : Table hash} (h : Bounded t) {key : Key} {hashed : UInt32}
    {a : Aggregate} (ha : a.Bounded) (hAdded : absorb key hashed a t = .ok () t') : Bounded t' := by
  rcases absorb_ok_cases hAdded with ⟨i, entry, hAt, -, rfl⟩ | ⟨-, rfl⟩
  · exact forall_mem_withAggregate h i _ ((h entry (Array.mem_of_getElem? hAt)).join ha)
  · exact forall_mem_withStation h ha

theorem Bounded.addRows (h : Bounded t) (rows : Bytes) (len : Nat) :
    Bounded (stateAfter (addRows rows len) t) :=
  addRows_preserves (fun _ _ _ _ _ hTenths h hAdded =>
    h.absorb (Aggregate.bounded_single hTenths) hAdded) rows len h

theorem Bounded.addReads (h : Bounded t) (source : Source) (segment : Segment) (buffer : Bytes) :
    Bounded (stateAfter (addReads source segment buffer) t) :=
  addReads_preserves (fun _ _ _ _ _ hTenths h hAdded =>
    h.absorb (Aggregate.bounded_single hTenths) hAdded) source segment buffer h

theorem Bounded.mergeFrom (h : Bounded t) {other : Table hash} (hOther : Bounded other) :
    Bounded (stateAfter (mergeFrom other) t) :=
  mergeFrom_preserves (fun entry hEntry _ _ h hAdded => h.absorb (hOther entry hEntry) hAdded) h

theorem bounded_of_withCapacity {wanted : Nat} (h : withCapacity wanted = .ok t) : Bounded t := by
  obtain ⟨size, -, -, rfl⟩ := exists_ofSize_of_withCapacity h
  simp [Bounded, ofSize]

theorem Reached.bounded (h : Reached t) : Bounded t := by
  induction h with
  | start h => exact bounded_of_withCapacity h
  | rows _ rows len ih => exact ih.addRows rows len
  | reads _ source segment buffer ih => exact ih.addReads source segment buffer
  | merge _ _ ih ihOther => exact ih.mergeFrom ihOther

/-! ### Positions -/

/-- The most words that the name of a row takes. -/
def nameWords : Nat := Word.countFor longestName

theorem Reached.orderly (h : Reached t) : Orderly longestName t := by
  have hAdd (name : List UInt8) (tenths : Int) (t t' : Table hash)
      (hLength : name.length ≤ longestName) (_ : tenths.natAbs ≤ 999) (h : Orderly longestName t)
      (hAdded : add (Key.packed name) tenths t = .ok () t') : Orderly longestName t' :=
    h.absorb longestName_lt.le hLength hAdded
  induction h with
  | start h =>
      obtain ⟨size, hSize, -, rfl⟩ := exists_ofSize_of_withCapacity h
      exact orderly_ofSize hSize longestName
  | rows _ rows len ih => exact addRows_preserves hAdd rows len ih
  | reads _ source segment buffer ih => exact addReads_preserves hAdd source segment buffer ih
  | merge _ _ ih ihOther => exact ih.mergeFrom longestName_lt.le ihOther

/-! ### Good order -/

/-- A sound table of stations whose names are short enough for a row. -/
structure Regular (t : Table hash) : Prop extends Sound t where
  short_names : ∀ name ∈ t.names, name.length ≤ longestName

theorem Regular.of_gathers {t t' : Table hash} (h : Regular t) {name : List UInt8} {a : Aggregate}
    (hLength : name.length ≤ longestName) (hBounded : a.Bounded) (hGathers : Gathers name a t t') :
    Regular t' where
  toSound := h.toSound.of_gathers hBounded hGathers
  short_names := hGathers.names_le hLength h.short_names

/-- As long as there is room for another station, there is a position for its name, unless the size
of the table is the largest one. -/
theorem Regular.hasPositionFor (h : Regular t) (hCapacity : t.capacity ≤ 294594427)
    (hRoom : t.length < t.capacity) (name : List UInt8) : t.HasPositionFor name := by
  intro _
  calc t.keys.size = wordsOf t.names := h.keys_size
    _ ≤ nameWords * t.names.length := wordsOf_le h.short_names
    _ ≤ nameWords * 294594427 := by
      rw [length_names]
      exact Nat.mul_le_mul_left nameWords (hRoom.le.trans hCapacity)
    _ < UInt32.size := by decide

/-- Unless the size of the table is the largest one, whatever is added to a sound table leads to a
sound table with the merged listing. -/
theorem Regular.of_absorbEach {t t' : Table hash} (h : Regular t)
    (hCapacity : t.capacity ≤ 294594427) {stations : List Station}
    (hShort : ∀ station ∈ stations, station.name.length ≤ longestName)
    (hBounded : ∀ station ∈ stations, station.aggregate.Bounded)
    (hAdded : absorbEach stations t = .ok () t') :
    Regular t' ∧ t'.stations = Listing.merge t.stations stations ∧ t'.size = t.size := by
  induction stations generalizing t with
  | nil =>
      cases hAdded
      exact ⟨h, rfl, rfl⟩
  | cons station rest ih =>
      rw [List.forall_mem_cons] at hShort hBounded
      obtain ⟨between, hFirst, hRest⟩ := absorbEach_cons_ok_iff.mp hAdded
      have hRoom := (h.takes_of_absorb hFirst).room
      have hGathers := h.gathers_of_absorb (hShort.1.trans longestName_lt.le)
        (fun hNew => h.hasPositionFor hCapacity (hRoom hNew) station.name) hFirst
      obtain ⟨hRegular, hStations, hSize⟩ := ih (h.of_gathers hShort.1 hBounded.1 hGathers)
        (by rw [capacity, hGathers.size]; exact hCapacity) hShort.2 hBounded.2 hRest
      exact ⟨hRegular, by rw [hStations, hGathers.stations, Listing.merge_cons],
        hSize.trans hGathers.size⟩

/-- An empty table is sound. -/
theorem regular_of_withCapacity {wanted : Nat} (h : withCapacity wanted = .ok t) : Regular t := by
  obtain ⟨size, hSize, -, rfl⟩ := exists_ofSize_of_withCapacity h
  exact
    { toValid := valid_ofSize hSize
      bounded := by simp [stations_ofSize]
      short_names := by simp [names, stations_ofSize] }

theorem Within.regular (h : Within longestName t) (hBounded : Bounded t) : Regular t where
  toValid := h.toValid
  bounded station hStation := by
    obtain ⟨entry, hEntry, rfl⟩ := List.mem_map.mp hStation
    exact hBounded entry (Array.mem_toList_iff.mp hEntry)
  short_names := h.names_le

/-- A table that came about is sound as long as its words have not outgrown their positions. -/
theorem Reached.regular (h : Reached t) (hPositions : t.keys.size ≤ UInt32.size) : Regular t :=
  (h.orderly.within hPositions).regular h.bounded

/-- Unless its size is the largest one, the words of a table never outgrow their positions, not even
if tables of that size were merged into it. -/
theorem Reached.regular_of_capacity (h : Reached t) (hCapacity : t.capacity ≤ 294594427) :
    Regular t := by
  have hWords : nameWords * t.capacity < UInt32.size :=
    (Nat.mul_le_mul_left nameWords hCapacity).trans_lt (by decide)
  exact (h.orderly.within_of_capacity hWords).regular h.bounded

end Table

end StationStats
