import StationStats.Proofs.Row.Refusal
import StationStats.Proofs.Station.Overcrowding

/-!
Rows of more names than there are positions for. Only a table of the largest size has room for so
many stations. There a range of rows can be refused although all of its lines are well-formed, and
there is room for their stations and their readings: a name that has no position is not found again,
so each further reading of it takes the place of a station until none is left. In all other sizes a
range is accepted exactly if its lines are well-formed, as long as there is room for what they say.
-/

namespace StationStats

/-! ### Rows of a crowd -/

/-- A name that can stand in a row does so with the reading 0.0. -/
theorem isRow_zero {name : List UInt8} (hLength : name.length ≤ longestName)
    (hSeparator : separator ∉ name) (hLineFeed : lineFeed ∉ name) :
    IsRow (name ++ separator :: [48, point, 48]) ⟨name, 0⟩ :=
  .mk hLength hSeparator hLineFeed (.unsigned (.short (by decide) (by decide)))

namespace Table

variable {hash : KeyHash} {width : Nat} {groups : List (UInt8 × Nat)} {b : UInt8}

theorem mem_numberedName {i : Nat} {c : UInt8} (h : c ∈ numberedName width b i) :
    c = b ∨ IsDigit c := by
  rw [numberedName, List.mem_append] at h
  rcases h with hFront | hNumber
  · exact Or.inl (List.eq_of_mem_replicate hFront)
  · obtain ⟨digit, hDigit, rfl⟩ := List.mem_map.mp hNumber
    have hRange := Tenths.isDigit_of_mem_digits hDigit
    rw [Char.isDigit_iff_toNat] at hRange
    have hByte : digit.toNat.toUInt8.toNat = digit.toNat :=
      UInt8.toNat_ofNat_of_lt' (hRange.2.trans_lt (by decide))
    rw [IsDigit, UInt8.le_iff_toNat_le, UInt8.le_iff_toNat_le, hByte]
    exact Or.inr hRange

theorem not_mem_numberedName {i : Nat} {c : UInt8} (hFront : b ≠ c) (hNoDigit : ¬ IsDigit c) :
    c ∉ numberedName width b i := fun hMem =>
  (mem_numberedName hMem).elim (fun hSame => hFront hSame.symm) hNoDigit

/-- A crowd can stand in rows if its bytes can and its names are short enough. -/
theorem exists_isRow_of_mem_crowd (hShort : width + 8 ≤ longestName)
    (hNumbers : ∀ group ∈ groups, group.2 ≤ 100000000)
    (hBytes : ∀ group ∈ groups, group.1 ≠ separator ∧ group.1 ≠ lineFeed) {o : Observation}
    (ho : o ∈ crowd width groups) : ∃ line, IsRow line o := by
  obtain ⟨group, hGroup, i, hi, rfl⟩ := mem_crowd_iff.mp ho
  have hLength := length_numberedName width group.1 (hi.trans_le (hNumbers group hGroup))
  obtain ⟨hSeparator, hLineFeed⟩ := hBytes group hGroup
  exact ⟨_, isRow_zero (hLength.2.trans hShort) (not_mem_numberedName hSeparator (by decide))
    (not_mem_numberedName hLineFeed (by decide))⟩

/-- As many stations with names of eight words as there are positions for. -/
def throng : List Observation :=
  crowd 56 [(97, 100000000), (98, 100000000), (99, 100000000), (100, 100000000), (101, 100000000),
    (102, 36870912)]

/-- One more station, the name of which has eight words, too. -/
def latecomer : Observation := { name := List.replicate 64 103, tenths := 0 }

/-- One reading of each station of the throng, and then readings of one more station alone. -/
def rush (n : Nat) : List Observation := throng ++ List.replicate n latecomer

theorem exhausting_throng : Exhausting 8 throng :=
  exhausting_crowd (by decide) (by decide) (by decide) (by decide) (by decide) (by decide)
    (by decide)

theorem length_throng : throng.length = 536870912 := length_crowd _ _

theorem straggling_latecomer : Straggling 8 throng latecomer.name :=
  straggling_replicate (by decide) (by decide) (by decide)

/-- Everything in a rush can stand in a row. -/
theorem exists_isRow_of_mem_rush {n : Nat} {o : Observation} (ho : o ∈ rush n) :
    ∃ line, IsRow line o := by
  rcases List.mem_append.mp ho with hFirst | hLate
  · exact exists_isRow_of_mem_crowd (by decide) (by decide) (by decide) hFirst
  · rw [List.eq_of_mem_replicate hLate]
    exact ⟨_, isRow_zero (by decide) (by decide) (by decide)⟩

theorem length_rush (n : Nat) : (rush n).length = 536870912 + n := by
  rw [rush, List.length_append, length_throng, List.length_replicate]

/-- There are no more stations in a rush than those of the throng and one more. -/
theorem length_dedup_names_rush_le (n : Nat) :
    ((rush n).map Observation.name).dedup.length ≤ 536870913 := by
  have hSubset : ((rush n).map Observation.name).dedup ⊆
      throng.map Observation.name ++ [latecomer.name] := by
    intro name hName
    rw [List.mem_dedup, rush, List.map_append, List.map_replicate, List.mem_append] at hName
    exact List.mem_append.mpr (hName.imp_right fun hLate =>
      List.mem_singleton.mpr (List.eq_of_mem_replicate hLate))
  have hLength := ((List.nodup_dedup _).subperm hSubset).length_le
  rwa [List.length_append, List.length_map, length_throng, List.length_singleton] at hLength

/-- A rush in which the last station comes so often that the largest table has no room for as many
stations, although it has room for all that there are. -/
theorem exists_tableFull_of_rush (hash : KeyHash) {wanted : Nat} (h : 294594427 < wanted)
    (hAccepted : wanted ≤ 733045421) :
    ∃ (start t : Table hash), withCapacity wanted = .ok start ∧ start.capacity = 733045421 ∧
      RoomFor start ((rush 196174510).map Observation.name) ∧
      observeAll (rush 196174510) start = .error (.tableFull 733045421) t := by
  obtain ⟨size, hSize, hLeast, hEnough, -⟩ := TableSize.exists_least hAccepted
  have hLargest : ∀ size ∈ TableSize.all, 294594427 < size.slots.toNat →
      size.slots.toNat = 733045421 := by decide
  have hSlots := hLargest size hSize (h.trans_le hEnough)
  have hStart : (withCapacity wanted : Except Fault (Table hash)) = .ok (ofSize size) := by
    rw [withCapacity, hLeast]
  have hCapacity : (ofSize size : Table hash).capacity = 733045421 := hSlots
  have hRoom : RoomFor (ofSize size : Table hash) ((rush 196174510).map Observation.name) := by
    apply roomFor_ofSize
    · rw [hSlots]
      exact (length_dedup_names_rush_le _).trans (by decide)
    · rw [List.length_map, length_rush]
      decide
  obtain ⟨t, hFull⟩ := exhausting_throng.exists_tableFull hStart (n := 196174510)
    (by rw [length_throng, hCapacity]; decide) straggling_latecomer
    (by rw [length_throng, hCapacity]; decide)
  rw [hCapacity] at hFull
  exact ⟨_, t, hStart, hCapacity, hRoom, hFull⟩

/-- The rows of a rush are refused, although they are well-formed and there is room for them. -/
theorem exists_addRows_tableFull (hash : KeyHash) {wanted : Nat} (h : 294594427 < wanted)
    (hAccepted : wanted ≤ 733045421) :
    ∃ (start t : Table hash) (rows : Bytes) (len : Nat), withCapacity wanted = .ok start ∧
      len + slack ≤ rows.size ∧ Terminated (rows.toList.take len) ∧
      Reads (rows.toList.take len) (rush 196174510) ∧
      RoomFor start ((lines (rows.toList.take len)).map nameOf) ∧
      addRows rows len start = .error (.fault (.tableFull 733045421)) t := by
  obtain ⟨start, t, hStart, -, hRoom, hFull⟩ := exists_tableFull_of_rush hash h hAccepted
  obtain ⟨text, hTerminated, hReads⟩ :=
    exists_text_of_rows fun o ho => exists_isRow_of_mem_rush (n := 196174510) ho
  obtain ⟨rows, len, hSlack, rfl⟩ := exists_rows_of_text text
  rw [hReads.names_eq] at hRoom
  refine ⟨start, t, rows, len, hStart, hSlack, hTerminated, hReads, hRoom, ?_⟩
  rw [addRows_eq_of_reads hSlack hTerminated hReads, hFull]
  rfl

/-! ### Acceptance -/

/-- For any hash and up to the largest size, whatever table of the size came about: what is accepted
of a range of whole rows with enough bytes behind it, whatever these are, is added line by line, in
order. As long as there is room for what the lines say, and positions for the names, the range is
accepted exactly if each of its lines is well-formed. Room alone is enough just if the size is not
the largest one. -/
theorem addRows_ok_iff_lines (hash : KeyHash) {wanted : Nat} (h : wanted ≤ 733045421) :
    ∃ start : Table hash, withCapacity wanted = .ok start ∧
      (∀ t : Table hash, Reached t → t.size = start.size → ∀ (rows : Bytes) (len : Nat),
        len + slack ≤ rows.size → Terminated (rows.toList.take len) →
          (∀ t', addRows rows len t = .ok () t' →
            ∃ observations, Reads (rows.toList.take len) observations ∧
              observeAll observations t = .ok () t') ∧
          (RoomFor t ((lines (rows.toList.take len)).map nameOf) →
            t.HasPositionsFor ((lines (rows.toList.take len)).map nameOf) →
              AcceptsLines t rows len)) ∧
      ((∀ t : Table hash, Reached t → t.size = start.size → ∀ (rows : Bytes) (len : Nat),
        len + slack ≤ rows.size → Terminated (rows.toList.take len) →
          RoomFor t ((lines (rows.toList.take len)).map nameOf) → AcceptsLines t rows len) ↔
        wanted ≤ 294594427) := by
  obtain ⟨size, hSize, hLeast, -, hSmallest⟩ := TableSize.exists_least h
  have hStart : (withCapacity wanted : Except Fault (Table hash)) = .ok (ofSize size) := by
    rw [withCapacity, hLeast]
  refine ⟨ofSize size, hStart, ?_, ?_, ?_⟩
  · intro t hReached _ rows len hSlack hTerminated
    refine ⟨fun t' hAdded => (addRows_ok_iff hSlack hTerminated).mp hAdded, ?_⟩
    intro hRoom hPositions
    exact (hReached.regular hPositions.held).acceptsLines hSlack hTerminated hRoom
      fun _ => hPositions
  · intro hAll
    by_contra hLarge
    obtain ⟨start, t, rows, len, hSame, hSlack, hTerminated, hReads, hRoom, hFull⟩ :=
      exists_addRows_tableFull hash (not_le.mp hLarge) h
    cases hStart.symm.trans hSame
    obtain ⟨t', hAdded⟩ := (hAll _ (.start hStart) rfl rows len hSlack hTerminated hRoom).mpr
      (exists_reads_iff.mp ⟨_, hReads⟩)
    cases hFull.symm.trans hAdded
  · intro hWanted t hReached hSame rows len hSlack hTerminated hRoom
    have hSlots : size.slots.toNat ≤ 294594427 :=
      hSmallest ⟨294594427, 0x74a2507d, 27⟩ (by decide) hWanted
    have hCapacity : t.capacity ≤ 294594427 := by
      rw [capacity, hSame]
      exact hSlots
    have hRegular := hReached.regular_of_capacity hCapacity
    exact hRegular.acceptsLines hSlack hTerminated hRoom fun hShort =>
      hRegular.hasPositionsFor hCapacity hShort hRoom

/-- A short and a long name, with separators, digits and line feeds behind the range. -/
theorem addRows_ok_two_lines :
    ∃ t', addRows (([97, 59, 49, 46, 48, 10] ++ List.replicate 40 110 ++
        [59, 45, 57, 57, 46, 57, 10] ++
        (List.replicate 16 [59, 49, 10, 59]).flatten : List UInt8)).toArray 53
      (ofSize ⟨9, 0x38e38e39, 1⟩ : Table KeyHash.fnv1a) = .ok () t' := by
  have hStart : (withCapacity 9 : Except Fault (Table KeyHash.fnv1a)) =
      .ok (ofSize ⟨9, 0x38e38e39, 1⟩) := rfl
  have hLines : lines ([97, 59, 49, 46, 48, 10] ++ List.replicate 40 110 ++
        [59, 45, 57, 57, 46, 57, 10]) =
      [[97] ++ separator :: [49, point, 48],
        List.replicate 40 110 ++ separator :: [minus, 57, 57, point, 57]] := by
    decide
  obtain ⟨start, hSame, -, hAccepts⟩ :=
    addRows_ok_iff_lines KeyHash.fnv1a (show 9 ≤ 733045421 by decide)
  cases hStart.symm.trans hSame
  refine (hAccepts.mpr (by decide) _ (.start hStart) rfl _ 53 (by decide) (by decide)
    (roomFor_ofSize (by decide) (by decide))).mpr ?_
  intro line hLine
  change line ∈ lines ([97, 59, 49, 46, 48, 10] ++ List.replicate 40 110 ++
    [59, 45, 57, 57, 46, 57, 10]) at hLine
  rw [hLines, List.mem_cons, List.mem_singleton] at hLine
  rcases hLine with rfl | rfl
  · exact ⟨_, .mk (by decide) (by decide) (by decide)
      (.unsigned (.short (by decide) (by decide)))⟩
  · exact ⟨_, .mk (by decide) (by decide) (by decide)
      (.signed (.long (by decide) (by decide) (by decide)))⟩

/-- In a table of the largest size stations with names of eight words take all positions, and one
more station is put in again with each of its readings. So the last of these is refused as that of a
station too many, although there are only 536870913 stations, fewer than 2³¹ readings, and no line
that is not well-formed. -/
theorem addRows_refuses_latecomer :
    ∃ (start t : Table KeyHash.fnv1a) (rows : Bytes) (len : Nat),
      withCapacity 733045421 = .ok start ∧ len + slack ≤ rows.size ∧
      Terminated (rows.toList.take len) ∧
      Reads (rows.toList.take len) (throng ++ List.replicate 196174510 latecomer) ∧
      RoomFor start ((lines (rows.toList.take len)).map nameOf) ∧
      addRows rows len start = .error (.fault (.tableFull 733045421)) t ∧
      ¬ AcceptsLines start rows len := by
  obtain ⟨start, t, rows, len, hStart, hSlack, hTerminated, hReads, hRoom, hFull⟩ :=
    exists_addRows_tableFull KeyHash.fnv1a (show 294594427 < 733045421 by decide) le_rfl
  refine ⟨start, t, rows, len, hStart, hSlack, hTerminated, hReads, hRoom, hFull,
    fun hAccepts => ?_⟩
  obtain ⟨t', hAdded⟩ := hAccepts.mpr (exists_reads_iff.mp ⟨_, hReads⟩)
  cases hFull.symm.trans hAdded

end Table

end StationStats
