import StationStats.File.Input
import StationStats.Proofs.File.Stream
import StationStats.Proofs.Row.Failure

/-!
The two ways to the bytes of a segment that lies inside the file and ends with a line feed. Both add
its lines one by one, and both deliver its bytes; only reads need a buffer that memory can hold.
-/

namespace StationStats

variable {hash : KeyHash} {content : Bytes} {segment : Segment} {t t' : Table hash}

namespace View

/-- A mapped content is viewed as it is. An empty one need not be mapped. -/
theorem ofMapping_eq {mapping : Except ReadError Bytes}
    (hMapping : 0 < content.size → mapping = .ok content) :
    ofMapping content.size mapping = .ok { bytes := content } := by
  by_cases hEmpty : content.size = 0
  · rw [Array.size_eq_zero_iff.mp hEmpty]
    rfl
  · rw [hMapping (Nat.pos_of_ne_zero hEmpty), ofMapping, if_neg hEmpty]

/-- A view adds the lines of a segment, whether or not enough bytes follow it in the file. -/
theorem addSegment_ok_iff (hInside : segment.stop ≤ content.size)
    (hTerminated : Terminated (segment.part content)) :
    addSegment { bytes := content } segment t = .ok () t' ↔
      ∃ observations, Reads (segment.part content) observations ∧
        Table.observeAll observations t = .ok () t' := by
  have hBytes := Table.toList_extract_segment segment content
  have hSlice (hRoom : segment.stop + slack ≤ content.size) :
      Table.addRows (content.extract segment.offset (segment.stop + slack)) segment.length t =
        .ok () t' ↔
        ∃ observations, Reads (segment.part content) observations ∧
          Table.observeAll observations t = .ok () t' := by
    have hSplit : content.extract segment.offset (segment.stop + slack) =
        content.extract segment.offset segment.stop ++ content.extract segment.stop
          (segment.stop + slack) := by
      have hOrder : segment.offset ≤ segment.stop := Nat.le_add_right _ _
      rw [Array.extract_append_extract, Nat.min_eq_left hOrder,
        Nat.max_eq_right (Nat.le_add_right _ _)]
    rw [hSplit]
    refine Table.addRows_segment_ok_iff ?_ hInside hTerminated
    rw [Array.size_extract]
    omega
  have hCopy : Table.addCompleted (content.extract segment.offset segment.stop) t = .ok () t' ↔
      ∃ observations, Reads (segment.part content) observations ∧
        Table.observeAll observations t = .ok () t' := by
    rw [Table.addCompleted_ok_iff, Bytes.completed_eq (by rwa [hBytes]), hBytes]
  simp only [addSegment, if_neg (Nat.not_lt.mpr hInside)]
  by_cases hRoom : segment.stop + slack ≤ content.size
  · rw [← hSlice hRoom]
    simp only [if_pos hRoom]
    cases Table.addRows (content.extract segment.offset (segment.stop + slack)) segment.length t <;>
      simp
  · rw [← hCopy]
    simp only [if_neg hRoom]
    cases Table.addCompleted (content.extract segment.offset segment.stop) t <;> simp

/-- A segment that fails in a view fails with what is counted before added, and names the offset of
the line in the segment. -/
theorem exists_addSegment_error (hash : KeyHash) (hInside : segment.stop ≤ content.size)
    (hTerminated : Terminated (segment.part content)) {before line : List UInt8}
    (h : FirstFailure (segment.part content) before line) :
    ∃ observations, Counted before line observations ∧ ∀ t t' : Table hash,
      Table.observeAll observations t = .ok () t' →
        addSegment { bytes := content } segment t =
          .error (.failed (.inRows (.ofLine line before.length))) t' := by
  by_cases hRoom : segment.stop + slack ≤ content.size
  · have hSlack :
        segment.length + slack ≤ (content.extract segment.offset (segment.stop + slack)).size := by
      rw [Array.size_extract, Segment.stop] at *
      omega
    have hTake :
        (content.extract segment.offset (segment.stop + slack)).toList.take segment.length =
        segment.part content := by
      rw [Bytes.toList_extract, List.take_take, Segment.part, Segment.stop,
        Nat.min_eq_left (by omega)]
    obtain ⟨observations, hCounted, hFails⟩ := Table.exists_addRows_eq hash hSlack (hTake ▸ h)
    refine ⟨observations, hCounted, fun t t' hObserved => ?_⟩
    simp only [addSegment, if_neg (Nat.not_lt.mpr hInside), if_pos hRoom, hFails, hObserved,
      Table.failsWith, Halt.map]
  · have hCompleted : (Bytes.completed (content.extract segment.offset segment.stop)).toList =
        segment.part content := by
      rw [Bytes.completed_eq (by rwa [Table.toList_extract_segment]), Table.toList_extract_segment]
    obtain ⟨observations, hCounted, hFails⟩ := Table.exists_addCompleted_eq hash (hCompleted ▸ h)
    refine ⟨observations, hCounted, fun t t' hObserved => ?_⟩
    simp only [addSegment, if_neg (Nat.not_lt.mpr hInside), if_neg hRoom, hFails, hObserved,
      Table.failsWith, Halt.map]

theorem readSegment_eq (hInside : segment.stop ≤ content.size) :
    readSegment { bytes := content } segment = .ok (content.extract segment.offset segment.stop) :=
  if_pos hInside

end View

namespace OpenFile

variable {path : String} {bufferSize : Nat}

/-- The buffer has room for the longest row and the slack. -/
theorem le_bufferFor (file : OpenFile) (segment : Segment) :
    slack + longestName + 7 ≤ file.bufferFor segment :=
  (show slack + longestName + 7 ≤ leastBuffer by decide).trans (Nat.le_max_right _ _)

/-- The buffer for a segment that is short enough for memory is so, too. -/
theorem bufferFor_le (file : OpenFile) (hLength : segment.length + slack ≤ longestBuffer) :
    file.bufferFor segment ≤ longestBuffer :=
  Nat.max_le.mpr ⟨(Nat.min_le_right _ _).trans hLength, by decide⟩

/-- Reads add the lines of a segment, provided that memory can hold the buffer. -/
theorem addSegment_ok_iff (file : OpenFile) {source : Source} (hServes : source.Serves content)
    (hInside : segment.stop ≤ content.size) (hTerminated : Terminated (segment.part content)) :
    addSegment file (.ok source) segment t = .ok () t' ↔
      file.bufferFor segment ≤ longestBuffer ∧
        ∃ observations, Reads (segment.part content) observations ∧
        Table.observeAll observations t = .ok () t' := by
  have hLong :
      slack + longestName + 7 ≤ (Array.replicate (file.bufferFor segment) (0 : UInt8)).size := by
    rw [Array.size_replicate]
    exact file.le_bufferFor segment
  have hReads :
      (∃ made, Table.addReads source segment (Array.replicate (file.bufferFor segment) 0) t =
        .ok made t') ↔
        ∃ observations, Reads (segment.part content) observations ∧
          Table.observeAll observations t = .ok () t' := by
    rw [Table.addReads_ok_iff hServes hLong]
    simp only [hInside, implies_true, hTerminated, true_and]
  rw [← hReads]
  simp only [addSegment]
  by_cases hBuffer : longestBuffer < file.bufferFor segment
  · simp [hBuffer]
  · rw [if_neg hBuffer]
    have hEnough := Nat.not_lt.mp hBuffer
    cases Table.addReads source segment (Array.replicate (file.bufferFor segment) 0) t <;>
      simp [hEnough]

theorem readSegment_ok_iff (file : OpenFile) (hSupplies : file.handle.Supplies content)
    (hInside : segment.stop ≤ content.size) {bytes : Bytes} :
    file.readSegment segment = .ok bytes ↔
      segment.length ≤ longestBuffer ∧ bytes = content.extract segment.offset segment.stop := by
  obtain ⟨calls, hCollected⟩ := hSupplies.collect segment.offset segment.length 0
  have hSize := Table.size_extract_segment hInside
  rw [Segment.stop] at hSize ⊢
  simp only [readSegment, hCollected, hSize, if_true]
  by_cases hLength : longestBuffer < segment.length
  · simp [hLength]
  · simp [hLength, Nat.not_lt.mp hLength, eq_comm]

end OpenFile

/-! ### Agreement -/

/-- A view of a content and a file that is read by offset agree on every segment inside the content.
They take the same segments of whole rows and then lead from any table to the same one, whatever
follows the segment in the view and however much the reads deliver at a time; and they deliver the
same bytes. Memory has to hold the content and the slack, which a view with the copy of its last
rows asks for as much as a buffer does. -/
theorem view_agrees_with_reads (hMemory : content.size + slack ≤ longestBuffer) (path : String)
    {bufferSize : Nat} (hBuffer : leastBuffer ≤ bufferSize) {handle source : Source}
    (hHandle : handle.Serves content) (hSource : source.Serves content) :
    ∃ view file, View.ofMapping content.size (.ok content) = .ok view ∧
      OpenFile.ofHandle path handle bufferSize = .ok file ∧
      ∀ segment : Segment, segment.stop ≤ content.size →
        (segment.length = 0 ∨ content[segment.stop - 1]? = some lineFeed → ∀ t t' : Table hash,
          view.addSegment segment t = .ok () t' ↔
            file.addSegment (.ok source) segment t = .ok () t') ∧
        view.readSegment segment = .ok (content.extract segment.offset segment.stop) ∧
        file.readSegment segment = .ok (content.extract segment.offset segment.stop) := by
  refine ⟨{ bytes := content }, { path, handle, bufferSize }, View.ofMapping_eq fun _ => rfl,
    if_pos hBuffer, fun segment hInside => ?_⟩
  have hLength : segment.length + slack ≤ longestBuffer := by
    rw [Segment.stop] at hInside
    omega
  refine ⟨fun hWhole t t' => ?_, View.readSegment_eq hInside,
    (OpenFile.readSegment_ok_iff _ hHandle.supplies hInside).mpr
      ⟨(Nat.le_add_right _ _).trans hLength, rfl⟩⟩
  have hTerminated := Table.terminated_part hWhole hInside
  rw [View.addSegment_ok_iff hInside hTerminated,
    OpenFile.addSegment_ok_iff _ hSource hInside hTerminated,
    and_iff_right (OpenFile.bufferFor_le _ hLength)]

/-- Two rows, the first of which is added as a segment: the view copies it, and the source
delivers one byte at a time. -/
theorem view_agrees_with_reads_two_rows :
    ∃ view file, View.ofMapping 12 (.ok #[97, 59, 49, 46, 48, 10, 98, 59, 50, 46, 53, 10]) =
      .ok view ∧
      OpenFile.ofHandle "m" (Source.ofBytes #[97, 59, 49, 46, 48, 10, 98, 59, 50, 46, 53, 10]) 256 =
        .ok file ∧
      ∃ t', view.addSegment ⟨0, 6⟩ (Table.ofSize ⟨9, 0x38e38e39, 1⟩ : Table KeyHash.fnv1a) =
        .ok () t' ∧
        file.addSegment
          (.ok ((Schedule.mk (some 1) []).source #[97, 59, 49, 46, 48, 10, 98, 59, 50, 46, 53, 10]))
          ⟨0, 6⟩ (Table.ofSize ⟨9, 0x38e38e39, 1⟩) = .ok () t' := by
  have hMemory : (#[97, 59, 49, 46, 48, 10, 98, 59, 50, 46, 53, 10] : Bytes).size + slack ≤
      longestBuffer := by
    decide
  have hReads :
      Reads (Segment.part ⟨0, 6⟩ #[97, 59, 49, 46, 48, 10, 98, 59, 50, 46, 53, 10])
        [⟨[97], 10⟩] := by
    have hRow : IsRow ([97] ++ separator :: [49, point, 48]) ⟨[97], 10⟩ :=
      .mk (by decide) (by decide) (by decide) (.unsigned (.short (by decide) (by decide)))
    exact .cons hRow .nil
  have hRegular : Table.Regular (Table.ofSize ⟨9, 0x38e38e39, 1⟩ : Table KeyHash.fnv1a) :=
    Table.regular_of_withCapacity (show Table.withCapacity 9 = .ok _ from rfl)
  obtain ⟨t', hObserved, -⟩ := hRegular.exists_observeAll_of_capacity (by decide)
    hReads.forall_mem (Table.roomFor_ofSize (by decide) (by decide))
  obtain ⟨view, file, hView, hFile, hAgree⟩ := @view_agrees_with_reads KeyHash.fnv1a _ hMemory "m" _
    (Nat.le_refl leastBuffer) _ _ (Source.serves_ofBytes _) (Source.serves_schedule Nat.one_pos _)
  obtain rfl := Except.ok.inj hView
  have hInside : Segment.stop ⟨0, 6⟩ ≤ 12 := by decide
  have hAdded := (View.addSegment_ok_iff hInside (by decide)).mpr ⟨_, hReads, hObserved⟩
  exact ⟨_, file, hView, hFile, t', hAdded,
    ((hAgree ⟨0, 6⟩ hInside).1 (Or.inr (by decide)) _ t').mp hAdded⟩

end StationStats
