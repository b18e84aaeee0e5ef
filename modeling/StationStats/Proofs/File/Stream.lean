import StationStats.File.Stream
import StationStats.Proofs.File.Source
import StationStats.Proofs.Row.Acceptance

/-!
Adding a segment through reads. Between two reads the buffer carries the part of a row that has been
read, and this part followed by the unread rest of the segment is what is still to be added. Each
round takes whole rows off the front of that text, so however the reads cut the segment, its rows
are added once and in order.
-/

namespace StationStats

/-- The bytes of a segment. -/
def Segment.part (segment : Segment) (content : Bytes) : List UInt8 :=
  (content.toList.drop segment.offset).take segment.length

namespace Table

variable {hash : KeyHash}

/-- What is still to be added of a segment: the carried bytes, and the content
from `offset` to `stop`. -/
def pending (content buffer : Bytes) (carried offset stop : Nat) : List UInt8 :=
  buffer.toList.take carried ++ (content.toList.drop offset).take (stop - offset)

/-- What the loop keeps: the carried bytes leave room to read, and none of them is a line feed. -/
structure Carries (buffer : Bytes) (carried : Nat) : Prop where
  room : carried < buffer.size - slack
  noLineFeed : lineFeed ∉ buffer.toList.take carried

section Round

variable {content buffer bytes : Bytes} {carried offset stop : Nat}

/-- A read fills the buffer behind the carried bytes. -/
theorem take_filled (hRoom : carried + bytes.size ≤ buffer.size) :
    (buffer.overwrite carried bytes.toList).toList.take (carried + bytes.size) =
      buffer.toList.take carried ++ bytes.toList := by
  rw [← Array.length_toList] at hRoom ⊢
  exact Bytes.take_overwrite hRoom

/-- The partial row at the end of the filled part of a buffer. -/
theorem toList_partialRow (buffer : Bytes) (filled : Nat) :
    (buffer.extract (buffer.wholeRows filled) filled).toList =
      (buffer.toList.take filled).drop (buffer.wholeRows filled) := by
  rw [Bytes.toList_extract, List.drop_take]

/-- The filled part of a buffer is its whole rows and the partial row behind them. -/
theorem take_eq_append_partialRow (buffer : Bytes) (filled : Nat) :
    buffer.toList.take filled =
      buffer.toList.take (buffer.wholeRows filled) ++ (buffer.toList.take filled).drop
        (buffer.wholeRows filled) := by
  conv_lhs => rw [← List.take_append_drop (buffer.wholeRows filled) (buffer.toList.take filled)]
  rw [List.take_take, Nat.min_eq_left (Bytes.wholeRows_le _ _)]

/-- The partial row is what is carried over. -/
theorem take_partialRow (buffer : Bytes) (filled : Nat) :
    (buffer.overwrite 0 (buffer.extract (buffer.wholeRows filled) filled).toList).toList.take
        (buffer.extract (buffer.wholeRows filled) filled).size =
      (buffer.toList.take filled).drop (buffer.wholeRows filled) := by
  have hFits : 0 + (buffer.extract (buffer.wholeRows filled) filled).toList.length ≤
      buffer.size := by
    rw [Array.length_toList, Array.size_extract]
    omega
  have hTake := Bytes.take_overwrite hFits
  rw [Nat.zero_add, List.take_zero, List.nil_append, Array.length_toList] at hTake
  rw [hTake, toList_partialRow]

/-- After a read, what is still to be added is the whole rows in the buffer and what is still
to be added after them. -/
theorem pending_eq (hBytes : bytes.toList = (content.toList.drop offset).take bytes.size)
    (hRoom : carried + bytes.size ≤ buffer.size) (hWanted : bytes.size ≤ stop - offset) :
    pending content buffer carried offset stop =
      let filled := buffer.overwrite carried bytes.toList
      let whole := filled.wholeRows (carried + bytes.size)
      let partialRow := filled.extract whole (carried + bytes.size)
      filled.toList.take whole ++
        pending content (filled.overwrite 0 partialRow.toList) partialRow.size
          (offset + bytes.size) stop := by
  have hSplit : stop - offset = bytes.size + (stop - (offset + bytes.size)) := by omega
  have hFilled := take_filled hRoom
  generalize hName : buffer.overwrite carried bytes.toList = filled at hFilled
  have hWhole := take_eq_append_partialRow filled (carried + bytes.size)
  simp only [pending]
  rw [take_partialRow, hSplit, List.take_add, ← hBytes, List.drop_drop, ← List.append_assoc,
    ← hFilled, ← List.append_assoc, ← hWhole]

/-- After a read, enough bytes stand in the buffer behind its whole rows. -/
theorem wholeRows_add_slack_le (hCarries : Carries buffer carried)
    (hWanted : bytes.size ≤ buffer.size - slack - carried) :
    (buffer.overwrite carried bytes.toList).wholeRows (carried + bytes.size) + slack ≤
      (buffer.overwrite carried bytes.toList).size := by
  have hWhole := Bytes.wholeRows_le (buffer.overwrite carried bytes.toList) (carried + bytes.size)
  have hRoom := hCarries.room
  rw [Bytes.size_overwrite]
  omega

/-- The carried part stays free of line feeds. -/
theorem carries_partialRow (buffer : Bytes) (filled : Nat)
    (hRoom : (buffer.extract (buffer.wholeRows filled) filled).size < buffer.size - slack) :
    Carries (buffer.overwrite 0 (buffer.extract (buffer.wholeRows filled) filled).toList)
      (buffer.extract (buffer.wholeRows filled) filled).size where
  room := by
    rw [Bytes.size_overwrite]
    exact hRoom
  noLineFeed := by
    rw [take_partialRow]
    exact Bytes.lineFeed_not_mem_drop_wholeRows buffer filled

end Round

variable {source : Source} {content : Bytes} {segment : Segment}

/-- If the loop ends well, the segment lies inside the content, what was still to be added ends with
a line feed, and it has been added. -/
theorem addReadsFrom_sound (hDelivers : source.Delivers content) {offset carried calls : Nat}
    {buffer : Bytes}
    {t : Table hash} (hCarries : Carries buffer carried) {made : Nat} {t' : Table hash}
    (hAdded : addReadsFrom source segment offset carried calls buffer t = .ok made t') :
    (offset < segment.stop → segment.stop ≤ content.size) ∧
      Terminated (pending content buffer carried offset segment.stop) ∧
      ∃ observations, Reads (pending content buffer carried offset segment.stop) observations ∧
        observeAll observations t = .ok () t' := by
  fun_induction addReadsFrom source segment offset carried calls buffer t with
  | case1 => cases hAdded
  | case2 => cases hAdded
  | case3 => cases hAdded
  | case4 offset carried calls buffer t hOffset room wanted bytes hRead hSome filled next whole _
      between hRows partialRow hPartial ih =>
      have hWanted : bytes.size ≤ wanted := source.size_le hRead
      have hRoom : carried + bytes.size ≤ buffer.size := by
        have := hCarries.room
        omega
      have hLeft : bytes.size ≤ segment.stop - offset := by omega
      have hFree : bytes.size ≤ buffer.size - slack - carried := by omega
      have hPending := pending_eq (hDelivers.toList_eq hRead) hRoom hLeft
      have hCarriesNext := carries_partialRow next filled (by rwa [Bytes.size_overwrite])
      obtain ⟨hInside, hTerminated, later, hLater, hLaterAdded⟩ := ih hCarriesNext hAdded
      have hSlack := wholeRows_add_slack_le hCarries hFree
      have hFirst := Bytes.terminated_take_wholeRows next filled
      obtain ⟨first, hReads, hFirstAdded⟩ := (addRows_ok_iff hSlack hFirst).mp hRows
      rw [hPending]
      refine ⟨?_, ?_, ?_⟩
      · intro _
        have := hDelivers.size_le hRead (by omega)
        omega
      · exact hFirst.append hTerminated
      · exact ⟨first ++ later, (reads_append_iff hFirst).mpr ⟨first, later, hReads, hLater, rfl⟩,
          observeAll_append_ok_iff.mpr ⟨between, hFirstAdded, hLaterAdded⟩⟩
  | case5 => cases hAdded
  | case6 offset calls buffer t hOffset =>
      cases hAdded
      have hDone : segment.stop - offset = 0 := by omega
      refine ⟨fun h => absurd h hOffset, ?_, [], ?_, rfl⟩
      · simp [pending, hDone, terminated_nil]
      · simp [pending, hDone, reads_nil_iff]
  | case7 => cases hAdded

/-- One round of the loop on rows that can be added: the whole rows in the buffer are added, and
what is left can be added after them. -/
theorem addRows_of_pending {buffer bytes : Bytes} {carried offset stop : Nat}
    (hBytes : bytes.toList = (content.toList.drop offset).take bytes.size)
    (hCarries : Carries buffer carried) (hRoom : bytes.size ≤ buffer.size - slack - carried)
    (hWanted : bytes.size ≤ stop - offset)
    (hTerminated : Terminated (pending content buffer carried offset stop))
    {observations : List Observation}
    (hReads : Reads (pending content buffer carried offset stop) observations) {t t' : Table hash}
    (hAdded : observeAll observations t = .ok () t') :
    let next := buffer.overwrite carried bytes.toList
    let whole := next.wholeRows (carried + bytes.size)
    let partialRow := next.extract whole (carried + bytes.size)
    let rest := pending content (next.overwrite 0 partialRow.toList) partialRow.size
      (offset + bytes.size) stop
    ∃ between later, addRows next whole t = .ok () between ∧ Terminated rest ∧ Reads rest later ∧
      observeAll later between = .ok () t' := by
  intro next whole partialRow rest
  have hFits : carried + bytes.size ≤ buffer.size := by
    have := hCarries.room
    omega
  have hFirst : Terminated (next.toList.take whole) := Bytes.terminated_take_wholeRows next _
  rw [pending_eq hBytes hFits hWanted] at hTerminated hReads
  obtain ⟨first, later, hReadsFirst, hReadsLater, rfl⟩ := (reads_append_iff hFirst).mp hReads
  obtain ⟨between, hFirstAdded, hLaterAdded⟩ := observeAll_append_ok_iff.mp hAdded
  exact ⟨between, later,
    (addRows_ok_iff (wholeRows_add_slack_le hCarries hRoom) hFirst).mpr
      ⟨first, hReadsFirst, hFirstAdded⟩,
    hTerminated.of_append, hReadsLater, hLaterAdded⟩

/-- If the segment lies inside the content and what is still to be added ends with a line feed and
can be added, the loop adds it, provided that the longest row fits the buffer. -/
theorem addReadsFrom_complete (hServes : source.Serves content) {offset carried calls : Nat}
    {buffer : Bytes} {t : Table hash} (hCarries : Carries buffer carried)
    (hLong : longestName + 7 ≤ buffer.size - slack)
    (hInside : offset < segment.stop → segment.stop ≤ content.size)
    (hTerminated : Terminated (pending content buffer carried offset segment.stop))
    {observations : List Observation}
    (hReads : Reads (pending content buffer carried offset segment.stop) observations)
    {t' : Table hash} (hAdded : observeAll observations t = .ok () t') :
    ∃ made, addReadsFrom source segment offset carried calls buffer t = .ok made t' := by
  revert observations
  fun_induction addReadsFrom source segment offset carried calls buffer t with
  | case1 offset carried calls buffer t hOffset room wanted error hRead =>
      obtain ⟨bytes, hBytes⟩ := hServes.answers calls offset wanted
      rw [hRead] at hBytes
      cases hBytes
  | case2 offset carried calls buffer t hOffset room wanted bytes hRead hNone =>
      have hRoom := hCarries.room
      have := hServes.progress hRead (by omega) (by omega)
      omega
  | case3 offset carried calls buffer t hOffset room wanted bytes hRead hSome filled next whole
      halt s =>
      rename_i hRows
      intro observations hReads hAdded
      have hWanted : bytes.size ≤ wanted := source.size_le hRead
      obtain ⟨between, later, hRowsAdded, -⟩ := addRows_of_pending
        (hServes.toList_eq hRead) hCarries (by omega) (by omega) hTerminated hReads hAdded
      cases hRows.symm.trans hRowsAdded
  | case4 offset carried calls buffer t hOffset room wanted bytes hRead hSome filled next whole _
      s hRows partialRow hPartial =>
      rename_i ih
      intro observations hReads hAdded
      have hWanted : bytes.size ≤ wanted := source.size_le hRead
      obtain ⟨between, later, hRowsAdded, hTerminatedNext, hReadsNext, hLaterAdded⟩ :=
        addRows_of_pending (hServes.toList_eq hRead) hCarries (by omega) (by omega) hTerminated
          hReads hAdded
      cases hRows.symm.trans hRowsAdded
      refine ih (carries_partialRow next filled (by rwa [Bytes.size_overwrite])) ?_ ?_
        hTerminatedNext hReadsNext hLaterAdded
      · rwa [Bytes.size_overwrite, Bytes.size_overwrite]
      · exact fun _ => hInside hOffset
  | case5 offset carried calls buffer t hOffset room wanted bytes hRead hSome filled next whole _
      s hRows partialRow =>
      rename_i hPartial
      intro observations hReads hAdded
      have hWanted : bytes.size ≤ wanted := source.size_le hRead
      obtain ⟨between, later, -, hTerminatedNext, hReadsNext, -⟩ := addRows_of_pending
        (hServes.toList_eq hRead) hCarries (by omega) (by omega) hTerminated hReads hAdded
      -- The carried part begins a row, so it is shorter than the longest one,
      -- which fits the buffer.
      have hShort := hReadsNext.length_lt_of_prefix hTerminatedNext (List.prefix_append _ _) <| by
        rw [take_partialRow]
        exact Bytes.lineFeed_not_mem_drop_wholeRows next filled
      rw [take_partialRow, ← toList_partialRow, Array.length_toList] at hShort
      exact absurd (hShort.trans_le hLong) hPartial
  | case6 offset calls buffer t hOffset =>
      intro observations hReads hAdded
      have hDone : segment.stop - offset = 0 := by omega
      simp only [pending, hDone, List.take_zero, List.append_nil, reads_nil_iff] at hReads
      subst hReads
      cases hAdded
      exact ⟨_, rfl⟩
  | case7 offset carried calls buffer t hOffset hCarried =>
      have hDone : segment.stop - offset = 0 := by omega
      have hRoom := hCarries.room
      rw [pending, hDone, List.take_zero, List.append_nil] at hTerminated
      have hSome : buffer.toList.take carried ≠ [] := by
        rw [Ne, ← List.length_eq_zero_iff, List.length_take, Array.length_toList]
        omega
      exact fun _ _ => absurd (hTerminated.mem hSome) hCarries.noLineFeed

/-! ### A whole segment -/

theorem toList_extract_segment (segment : Segment) (content : Bytes) :
    (content.extract segment.offset segment.stop).toList = segment.part content := by
  rw [Bytes.toList_extract, Segment.stop, Nat.add_sub_cancel_left, Segment.part]

theorem size_extract_segment (hInside : segment.stop ≤ content.size) :
    (content.extract segment.offset segment.stop).size = segment.length := by
  rw [Segment.stop] at hInside ⊢
  rw [Array.size_extract]
  omega

/-- Before the first read all of the segment is to be added. -/
theorem pending_start (segment : Segment) (content buffer : Bytes) :
    pending content buffer 0 segment.offset segment.stop = segment.part content := by
  rw [pending, List.take_zero, List.nil_append, Segment.stop, Nat.add_sub_cancel_left, Segment.part]

/-- The text of a segment that is not empty ends with a line feed exactly if
its last byte is one. -/
theorem terminated_part_iff (hSome : 0 < segment.length) (hInside : segment.stop ≤ content.size) :
    Terminated (segment.part content) ↔ content[segment.stop - 1]? = some lineFeed := by
  rw [Segment.stop] at hInside ⊢
  have hIndex : segment.offset + segment.length - 1 < content.size := by omega
  have hLast :
      (segment.part content).getLast? = some content[segment.offset + segment.length - 1] := by
    rw [Segment.part, List.getLast?_take, if_neg (by omega), List.getElem?_drop,
      Array.getElem?_toList, ← Nat.add_sub_assoc hSome, Array.getElem?_eq_getElem hIndex,
      Option.some_or]
  rw [Terminated, hLast, Array.getElem?_eq_getElem hIndex]
  simp

/-- A segment that is empty or ends behind a line feed holds whole lines. -/
theorem terminated_part (hWhole : segment.length = 0 ∨ content[segment.stop - 1]? = some lineFeed)
    (hInside : segment.stop ≤ content.size) : Terminated (segment.part content) := by
  rcases Nat.eq_zero_or_pos segment.length with hNone | hSome
  · rw [Segment.part, hNone, List.take_zero]
    exact terminated_nil
  · exact (terminated_part_iff hSome hInside).mpr (hWhole.resolve_left hSome.ne')

/-- Adding the bytes of a segment with enough others behind them. -/
theorem addRows_segment_ok_iff {spare : Bytes} (hSpare : spare.size = slack)
    (hInside : segment.stop ≤ content.size) (hTerminated : Terminated (segment.part content))
    {t t' : Table hash} :
    addRows (content.extract segment.offset segment.stop ++ spare) segment.length t = .ok () t' ↔
      ∃ observations, Reads (segment.part content) observations ∧
        observeAll observations t = .ok () t' := by
  have hSize := size_extract_segment hInside
  have hTake : (content.extract segment.offset segment.stop ++ spare).toList.take segment.length =
      segment.part content := by
    rw [Array.toList_append, toList_extract_segment,
      List.take_left' (by rw [← toList_extract_segment,
      Array.length_toList, hSize])]
  have hSlack :
      segment.length + slack ≤ (content.extract segment.offset segment.stop ++ spare).size := by
    rw [Array.size_append, hSize, hSpare]
  rw [addRows_ok_iff hSlack (by rwa [hTake]), hTake]

section Reads

variable (hServes : source.Serves content) {buffer : Bytes} {t t' : Table hash}

include hServes

/-- A segment that is added lies inside the content, ends with a line feed unless it is empty, and
what is added is its lines, one by one. -/
theorem addReads_sound (hRoom : slack < buffer.size)
    (hAdded : ∃ made, addReads source segment buffer t = .ok made t') :
    (segment.offset < segment.stop → segment.stop ≤ content.size) ∧
      Terminated (segment.part content) ∧
      ∃ observations, Reads (segment.part content) observations ∧
        observeAll observations t = .ok () t' := by
  obtain ⟨made, hMade⟩ := hAdded
  rw [addReads, if_pos hRoom] at hMade
  rw [← pending_start segment content buffer]
  exact addReadsFrom_sound hServes.toDelivers ⟨Nat.sub_pos_of_lt hRoom, by simp⟩ hMade

/-- With room for the longest row every such segment is added. -/
theorem addReads_ok_iff (hLong : slack + longestName + 7 ≤ buffer.size) :
    (∃ made, addReads source segment buffer t = .ok made t') ↔
      (segment.offset < segment.stop → segment.stop ≤ content.size) ∧
        Terminated (segment.part content) ∧
        ∃ observations, Reads (segment.part content) observations ∧
          observeAll observations t = .ok () t' := by
  have hRoom : slack < buffer.size := by omega
  refine ⟨addReads_sound hServes hRoom, ?_⟩
  rintro ⟨hInside, hTerminated, observations, hReads, hObserved⟩
  rw [← pending_start segment content buffer] at hTerminated hReads
  rw [addReads, if_pos hRoom]
  exact addReadsFrom_complete hServes ⟨Nat.sub_pos_of_lt hRoom, by simp⟩ (by omega) hInside
    hTerminated hReads hObserved

end Reads

/-- The segment is empty, or it lies inside the content, ends with a line feed, and its bytes with
some others behind them are added to the table. -/
def AddsSegment (content : Bytes) (segment : Segment) (spare : Bytes) (t t' : Table hash) : Prop :=
  segment.length = 0 ∧ t' = t ∨
    segment.stop ≤ content.size ∧ content[segment.stop - 1]? = some lineFeed ∧
      addRows (content.extract segment.offset segment.stop ++ spare) segment.length t = .ok () t'

/-- What adding a segment comes down to. -/
theorem addsSegment_iff {spare : Bytes} (hSpare : spare.size = slack) {t t' : Table hash} :
    AddsSegment content segment spare t t' ↔
      (segment.offset < segment.stop → segment.stop ≤ content.size) ∧
        Terminated (segment.part content) ∧
        ∃ observations, Reads (segment.part content) observations ∧
          observeAll observations t = .ok () t' := by
  have hEmpty (hNone : segment.length = 0) : segment.part content = [] := by
    rw [Segment.part, hNone, List.take_zero]
  have hGrows : segment.offset < segment.stop ↔ 0 < segment.length := by
    rw [Segment.stop]
    omega
  rw [hGrows]
  constructor
  · rintro (⟨hNone, rfl⟩ | ⟨hInside, hLast, hAdded⟩)
    · rw [hEmpty hNone]
      exact ⟨fun hSome => absurd hNone hSome.ne', terminated_nil, [], reads_nil_iff.mpr rfl, rfl⟩
    · have hTerminated := terminated_part (Or.inr hLast) hInside
      exact ⟨fun _ => hInside, hTerminated,
        (addRows_segment_ok_iff hSpare hInside hTerminated).mp hAdded⟩
  · rintro ⟨hInside, hTerminated, observations, hReads, hObserved⟩
    rcases Nat.eq_zero_or_pos segment.length with hNone | hSome
    · rw [hEmpty hNone, reads_nil_iff] at hReads
      subst hReads
      cases hObserved
      exact Or.inl ⟨hNone, rfl⟩
    · exact Or.inr ⟨hInside hSome, (terminated_part_iff hSome (hInside hSome)).mp hTerminated,
        (addRows_segment_ok_iff hSpare (hInside hSome) hTerminated).mpr
          ⟨observations, hReads, hObserved⟩⟩

/-- Adding a segment through reads of any lengths does what adding its bytes does, and it succeeds
exactly if that does, provided that the buffer has room for the longest row and the slack. With a
shorter buffer it may fail, but what it adds is the same. -/
theorem addReads_ok_iff_addsSegment (hServes : source.Serves content) (segment : Segment)
    (buffer : Bytes) {spare : Bytes} (hSpare : spare.size = slack) (t t' : Table hash) :
    (slack + longestName + 7 ≤ buffer.size →
      ((∃ made, addReads source segment buffer t = .ok made t') ↔
        AddsSegment content segment spare t t')) ∧
    (slack < buffer.size →
      (∃ made, addReads source segment buffer t = .ok made t') →
        AddsSegment content segment spare t t') := by
  rw [addsSegment_iff hSpare]
  exact ⟨addReads_ok_iff hServes, addReads_sound hServes⟩

/-- Reads of at most five bytes cut both rows, and the buffer holds separators at first. -/
theorem addReads_ok_short_reads :
    ∃ made t', addReads
      ((Schedule.mk (some 5) []).source #[97, 59, 49, 46, 48, 10, 98, 59, 45, 50, 46, 53, 10])
      ⟨0, 13⟩ (Array.replicate 171 59) (ofSize ⟨9, 0x38e38e39, 1⟩ : Table KeyHash.fnv1a) =
        .ok made t' := by
  have hReads :
      Reads [97, 59, 49, 46, 48, 10, 98, 59, 45, 50, 46, 53, 10] [⟨[97], 10⟩, ⟨[98], -25⟩] := by
    have hFirst : IsRow ([97] ++ separator :: [49, point, 48]) ⟨[97], 10⟩ :=
      .mk (by decide) (by decide) (by decide) (.unsigned (.short (by decide) (by decide)))
    have hSecond : IsRow ([98] ++ separator :: [minus, 50, point, 53]) ⟨[98], -25⟩ :=
      .mk (by decide) (by decide) (by decide) (.signed (.short (by decide) (by decide)))
    exact .cons hFirst (.cons hSecond .nil)
  have hRegular : Regular (ofSize ⟨9, 0x38e38e39, 1⟩ : Table KeyHash.fnv1a) :=
    (Reached.start (show withCapacity 9 = .ok _ from rfl)).regular (by decide)
  obtain ⟨t', hAdded, -⟩ := hRegular.exists_observeAll_of_capacity (by decide) hReads.forall_mem
    (roomFor_ofSize (by decide) (by decide))
  have hServes := Source.serves_schedule (show 0 < 5 by decide)
    #[97, 59, 49, 46, 48, 10, 98, 59, 45, 50, 46, 53, 10]
  have hSpare : (Array.replicate slack lineFeed).size = slack := Array.size_replicate
  obtain ⟨made, hMade⟩ :=
    ((addReads_ok_iff_addsSegment hServes ⟨0, 13⟩ (Array.replicate 171 59) hSpare _ t').1
    (by rw [Array.size_replicate]; decide)).mpr (Or.inr ⟨by decide, by decide,
      (addRows_segment_ok_iff hSpare (by decide) (by decide)).mpr ⟨_, hReads, hAdded⟩⟩)
  exact ⟨made, t', hMade⟩

end Table

end StationStats
