import StationStats.Proofs.Run.Summary

/-!
What is reported of a file in which some line is no row. Several segments may fail, and the
tail is added after all of them, but the error is that of the first line in the file that is no
row: the segment it names and the offset in that segment add up to the position of the line,
however the file was divided.
-/

namespace StationStats

/-- The error names a segment of the division in its context, and in its innermost message the
offset of a row in that segment; together they are this position in the file. -/
def RunError.Locates (s : Segmentation) (position : Nat) (error : RunError) : Prop :=
  ∃ segment context inner offset, (segment ∈ s.segments ∨ segment = s.tail) ∧
    error.messages = [context ++ segment.text, inner] ∧ NamesOffset inner offset ∧
      segment.offset + offset = position

/-- There are no more lines in the text than a table can count, and no more stations than it has
room for, whether or not the lines are rows. -/
structure Countable (text : List UInt8) : Prop where
  stations : (namesOf text).dedup.length ≤ Table.runSize.slots.toNat
  few : (lines text).length < 2 ^ 31

namespace Countable

variable {text first second before line : List UInt8} {observations : List Observation}

theorem of_sublist (h : Countable text) (hLines : (lines first).Sublist (lines text)) :
    Countable first where
  stations := (Table.length_dedup_le ((hLines.filter _).map nameOf).subset).trans h.stations
  few := hLines.length_le.trans_lt h.few

theorem left (hTerminated : Terminated first) (h : Countable (first ++ second)) : Countable first :=
  h.of_sublist (by rw [lines_append hTerminated]; exact List.sublist_append_left _ _)

theorem right (hTerminated : Terminated first) (h : Countable (first ++ second)) :
    Countable second :=
  h.of_sublist (by rw [lines_append hTerminated]; exact List.sublist_append_right _ _)

theorem length_namesOf (h : Countable text) : (namesOf text).length < 2 ^ 31 := by
  rw [namesOf, List.length_map]
  exact (List.length_filter_le _ _).trans_lt h.few

/-- What rows say is manageable. -/
theorem manageable (h : Countable text) (hReads : Reads text observations) :
    Table.Manageable observations :=
  .of_names h.stations h.length_namesOf (by rw [hReads.namesOf_eq]) hReads.forall_mem

/-- So is what is counted until a line fails. -/
theorem manageable_of_failure (h : Countable text) (hFailure : FirstFailure text before line)
    (hCounted : Counted before line observations) : Table.Manageable observations :=
  .of_names h.stations h.length_namesOf (hCounted.names_sublist hFailure) hCounted.forall_mem

end Countable

namespace Summary

variable {hash : KeyHash} {content : Bytes} {before line : List UInt8}

/-- The first segment with a line that is no row fails, and no segment before it does. -/
theorem exists_segmentTables_error (hash : KeyHash) {start stop : Nat} {segments : List Segment}
    (hTiles : Tiles start segments stop) (hStop : stop ≤ content.size)
    (hWhole : ∀ segment ∈ segments, Terminated (segment.part content))
    (hCountable : Countable (content.extract start stop).toList)
    (h : FirstFailure (content.extract start stop).toList before line) :
    ∃ segment ∈ segments, ∃ offset, segment.offset + offset = start + before.length ∧
      segmentTables (viewed hash content) (Table.ofSize Table.runSize) segments =
        .error (.failed (.inSegment segment (.inRows (.ofLine line offset)))) := by
  -- Each segment is added to the same empty table, so that no segment takes room from another.
  have hEmpty : Table.Holds [] (Table.ofSize Table.runSize : Table hash) := Table.holds_nil
  induction segments generalizing start before with
  | nil =>
      obtain rfl : start = stop := hTiles
      exact absurd (by simp) h.ne_nil
  | cons segment rest ih =>
      rw [toList_extract_cons hTiles] at h hCountable
      obtain ⟨rfl, -, hRest⟩ := hTiles
      rw [List.forall_mem_cons] at hWhole
      have hInside := hRest.le.trans hStop
      rcases h.cases_append hWhole.1 with hHere | ⟨observations, later, hReads, hLater, rfl⟩
      · obtain ⟨observations, hCounted, hFails⟩ :=
          View.exists_addSegment_error hash hInside hWhole.1 hHere
        obtain ⟨t, hObserved⟩ := hEmpty.exists_observeAll
          ((hCountable.left hWhole.1).manageable_of_failure hHere hCounted)
        refine ⟨segment, List.mem_cons_self, before.length, rfl, ?_⟩
        simp only [segmentTables, viewed, hFails _ _ hObserved, Halt.map]
      · obtain ⟨t, hObserved⟩ :=
          hEmpty.exists_observeAll ((hCountable.left hWhole.1).manageable hReads)
        have hAdded := (reaches_viewed content).adds hInside hWhole.1 hReads hObserved
        obtain ⟨found, hFound, offset, hOffset, hError⟩ :=
          ih hRest hWhole.2 (hCountable.right hWhole.1) hLater
        have hLength : (segment.part content).length = segment.length := by
          rw [← Table.toList_extract_segment, Array.length_toList,
            Table.size_extract_segment hInside]
        refine ⟨found, List.mem_cons_of_mem _ hFound, offset, ?_, ?_⟩
        · rw [hOffset, List.length_append, hLength, Segment.stop, Nat.add_assoc]
        · simp only [segmentTables, hAdded, hError, Except.map]

/-- A tail that fails, with room for what is counted before. -/
theorem addTail_error {tail : Segment} (hInside : tail.stop ≤ content.size)
    {observations : List Observation} {t : Table hash} (hHolds : t.Holds observations)
    (h : FirstFailure (Bytes.completed (content.extract tail.offset tail.stop)).toList before line)
    (hManageable : ∀ more, Counted before line more → Table.Manageable (observations ++ more)) :
    addTail (viewed hash content) tail t =
      .error (.failed (.inTail tail (.ofLine line before.length))) := by
  obtain ⟨more, hCounted, hFails⟩ := Table.exists_addCompleted_eq hash h
  obtain ⟨t', hObserved⟩ := hHolds.exists_observeAll (hManageable more hCounted)
  have hSome : tail.length ≠ 0 := fun hNone => h.ne_nil (toList_completed_tail hNone)
  simp only [addTail, if_neg hSome, (reaches_viewed content).delivers hInside, hFails, hObserved,
    Table.failsWith, Halt.map]

/-- The error locates the first line of the content that is no row, whether it stands in a segment
or, with all segments added and merged, in the tail. -/
theorem exists_ofSegmentation_error (hash : KeyHash) {s : Segmentation} (h : Whole s content)
    (hCountable : Countable content.completed.toList)
    (hFailure : FirstFailure content.completed.toList before line) :
    ∃ error, ofSegmentation (viewed hash content) s = .error (.failed error) ∧
      error.Locates s before.length := by
  have hStop : s.tail.offset ≤ content.size := by
    rw [← h.tail_stop]
    exact Nat.le_add_right _ _
  obtain ⟨hWhole, hTerminated⟩ := terminated_of_aligned h.tiles hStop h.aligned
  rw [h.toList_completed] at hCountable hFailure
  rcases hFailure.cases_append hTerminated with hHere | ⟨observations, later, hReads, hLater, rfl⟩
  · obtain ⟨segment, hSegment, offset, hOffset, hError⟩ :=
      exists_segmentTables_error hash h.tiles hStop hWhole (hCountable.left hTerminated) hHere
    rw [Nat.zero_add] at hOffset
    refine ⟨.inSegment segment (.inRows (.ofLine line offset)), ?_, segment,
      "failed to aggregate segment ", _, offset, Or.inl hSegment, rfl,
      RowError.namesOffset_ofLine line offset, hOffset⟩
    simp only [ofSegmentation, Table.withCapacity_stationCount, hError]
  · have hManageable := (hCountable.left hTerminated).manageable hReads
    have hReaches : (viewed hash content).Reaches content := reaches_viewed content
    obtain ⟨tables, parts, hTables, hParts, rfl⟩ :=
      segmentTables_complete hReaches h.tiles hStop hWhole hReads hManageable
    obtain ⟨merged, hMerged⟩ := exists_mergeTables hParts hManageable
    have hHolds := holds_of_mergeTables hParts hMerged
    have hTail := addTail_error h.tail_stop.le hHolds hLater fun more hCounted =>
      hCountable.manageable_of_failure hFailure (hCounted.append hTerminated hReads)
    have hSize : (content.extract 0 s.tail.offset).toList.length = s.tail.offset := by
      rw [Array.length_toList, Array.size_extract, Nat.min_eq_left hStop, Nat.sub_zero]
    have hPosition : s.tail.offset + later.length =
        ((content.extract 0 s.tail.offset).toList ++ later).length := by
      rw [List.length_append, hSize]
    refine ⟨.inTail s.tail (.ofLine line later.length), ?_, s.tail,
      "failed to aggregate end of file segment ", _, later.length, Or.inr rfl, rfl,
      RowError.namesOffset_ofLine line later.length, hPosition⟩
    simp only [ofSegmentation, Table.withCapacity_stationCount, hTables, hMerged, hTail]

/-- If some line of a file is no row, its lines are not too many, and neither are the stations they
begin with, then what is reported of a view of it is the first such line: the segment that the error
names and the offset in its innermost message lead to the position of that line, whatever the number
of threads and however the reads that it is divided by are cut. -/
theorem ofOpened_locates_first_failure (path : String)
    (hLines : (lines content.completed.toList).length < 2 ^ 31)
    (hStations : (namesOf content.completed.toList).dedup.length ≤ 12973)
    (hFails : ∃ line ∈ lines content.completed.toList, ∀ o, ¬ IsRow line o) :
    ∃ before line, FirstFailure content.completed.toList before line ∧
      ∀ opening : Opening, opening.Serves content → ∀ threads s calls,
        Segmentation.ofSource opening.handle content.size threads 0 = .ok s calls →
          ∃ error, ofOpened path (.ok opening) threads .mapped = .error (.failed error) ∧
            error.Locates s before.length := by
  have hNotAll : ¬ ∀ line ∈ lines content.completed.toList, ∃ o, IsRow line o := by
    intro hAll
    obtain ⟨line, hLine, hNoRow⟩ := hFails
    obtain ⟨o, hRow⟩ := hAll line hLine
    exact hNoRow o hRow
  obtain ⟨before, line, hFailure⟩ :=
    FirstFailure.exists_of_not_rows content.terminated_completed hNotAll
  refine ⟨before, line, hFailure, fun opening hOpening threads s calls hDivided => ?_⟩
  have hWhole := whole_of_ofSource hOpening.handle.toDelivers hDivided
  obtain ⟨error, hError, hLocates⟩ :=
    exists_ofSegmentation_error KeyHash.fnv1a hWhole ⟨hStations, hLines⟩ hFailure
  exact ⟨error, by simp only [ofOpened_mapped hOpening, hDivided, hError], hLocates⟩

/-! ### A line that is no row in the second segment -/

/-- Rows of a station, a line without a separator, and again rows. -/
def flawedLines (before behind : Nat) : List (List UInt8) :=
  List.replicate before [97, 59, 49, 46, 48] ++ [98] :: List.replicate behind [97, 59, 49, 46, 48]

/-- The file of these lines. -/
def flawed (before behind : Nat) : Bytes :=
  ((flawedLines before behind).map (· ++ [lineFeed])).flatten.toArray

theorem size_flawed (before behind : Nat) :
    (flawed before behind).size = 6 * before + 2 + 6 * behind := by
  simp only [flawed, flawedLines, List.map_append, List.map_replicate, List.map_cons,
    List.flatten_append, List.flatten_cons, List.size_toArray, List.length_append,
    List.length_flatten, List.sum_replicate_nat, List.length_cons, List.length_nil]
  omega

theorem mem_flawedLines {before behind : Nat} {line : List UInt8}
    (hLine : line ∈ flawedLines before behind) :
    line = [97, 59, 49, 46, 48] ∨ line = [98] := by
  rw [flawedLines, List.mem_append, List.mem_cons] at hLine
  rcases hLine with hRow | rfl | hRow
  · exact Or.inl (List.eq_of_mem_replicate hRow)
  · exact Or.inr rfl
  · exact Or.inl (List.eq_of_mem_replicate hRow)

theorem completed_flawed (before behind : Nat) :
    (flawed before behind).completed = flawed before behind ∧
    lines (flawed before behind).toList = flawedLines before behind := by
  have hLines : ∀ line ∈ flawedLines before behind, lineFeed ∉ line := by
    intro line hLine
    rcases mem_flawedLines hLine with rfl | rfl <;> decide
  obtain ⟨hTerminated, hText⟩ := lines_flatten hLines
  exact ⟨Bytes.completed_eq hTerminated, hText⟩

theorem lines_flawed (before behind : Nat) :
    lines (flawed before behind).completed.toList = flawedLines before behind := by
  rw [(completed_flawed before behind).1, (completed_flawed before behind).2]

theorem namesOf_flawed (before behind : Nat) :
    namesOf (flawed before behind).completed.toList ⊆ [[97]] := by
  intro name hName
  rw [namesOf, lines_flawed, List.mem_map] at hName
  obtain ⟨line, hLine, rfl⟩ := hName
  obtain ⟨hMem, hSeparator⟩ := List.mem_filter.mp hLine
  rcases mem_flawedLines hMem with rfl | rfl
  · decide
  · exact absurd hSeparator (by decide)

theorem length_before_flawed {n m : Nat}
    (h : FirstFailure (flawed n m).completed.toList before line) :
    before.length = 6 * n := by
  obtain ⟨hTerminated, hReads⟩ := reads_replicate isRow_one_byte n
  have hText : (flawed n m).completed.toList =
      (List.replicate n ([97] ++ separator :: [49, point, 48] ++ [lineFeed])).flatten ++
        ([98] ++ lineFeed ::
          (List.replicate m ([97] ++ separator :: [49, point, 48] ++ [lineFeed])).flatten) := by
    rw [(completed_flawed n m).1, flawed, flawedLines, List.map_append, List.map_cons,
      List.flatten_append, List.flatten_cons, List.map_replicate, List.map_replicate]
    rfl
  rw [hText] at h
  obtain ⟨rfl, -⟩ := h.eq_of_reads hTerminated hReads (by decide)
    (not_isRow_of_not_mem (by decide))
  rw [List.length_flatten, List.map_replicate, List.sum_replicate_nat]
  exact Nat.mul_comm n 6

/-- The line that is no row stands in the second of two segments, behind eight thousand rows. -/
theorem ofOpened_locates_line_of_second_segment :
    ∃ error s calls,
      Segmentation.ofSource (choppy (flawed 8000 4000)).handle (flawed 8000 4000).size 2 0 =
        .ok s calls ∧
        s.segments.length = 2 ∧
        ofOpened "m" (.ok (choppy (flawed 8000 4000))) 2 .mapped = .error (.failed error) ∧
        error.Locates s 48000 := by
  have hServes := serves_choppy (flawed 8000 4000)
  have hLines : (lines (flawed 8000 4000).completed.toList).length < 2 ^ 31 := by
    rw [lines_flawed, flawedLines, List.length_append, List.length_cons, List.length_replicate,
      List.length_replicate]
    decide
  have hStations := (Table.length_dedup_le (namesOf_flawed 8000 4000)).trans
    (show ([[97]] : List (List UInt8)).dedup.length ≤ 12973 by decide)
  have hFails : ∃ line ∈ lines (flawed 8000 4000).completed.toList, ∀ o, ¬ IsRow line o := by
    rw [lines_flawed]
    exact ⟨[98], List.mem_append_right _ List.mem_cons_self, not_isRow_of_not_mem (by decide)⟩
  have hShort : (flawed 8000 4000).LinesWithin (searchWindow - slack) := by
    apply linesWithin_of_completed
    intro line hLine
    rw [lines_flawed] at hLine
    rcases mem_flawedLines hLine with rfl | rfl <;> decide
  obtain ⟨s, calls, hDivided, hCount⟩ :=
    Segmentation.exists_ofSource_of_linesWithin hServes.handle hShort 2 0
  obtain ⟨before, line, hFailure, hAll⟩ :=
    ofOpened_locates_first_failure "m" hLines hStations hFails
  obtain ⟨error, hError, hLocates⟩ := hAll _ hServes 2 s calls hDivided
  rw [length_before_flawed hFailure] at hLocates
  refine ⟨error, s, calls, hDivided, ?_, hError, hLocates⟩
  rw [hCount, size_flawed]
  decide

end Summary

end StationStats
