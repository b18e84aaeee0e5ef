import StationStats.Proofs.File.Input
import StationStats.Proofs.File.SegmentCount
import StationStats.Proofs.Row.Refusal
import StationStats.Proofs.Run.Holdings
import StationStats.Run.Summary

/-!
A summary is the report on the lines of the file, one after the other. Division, slack, buffers,
separate tables and their merging do not show in it.
-/

namespace StationStats

variable {hash : KeyHash} {content : Bytes}

/-! ### Access -/

/-- The access adds the lines of segments that lie in the content, and delivers its bytes. It may
refuse a segment only if memory cannot hold its bytes and the slack. -/
structure SegmentAccess.Serves (access : SegmentAccess hash) (content : Bytes) : Prop where
  added : ∀ {segment : Segment} {t t' : Table hash}, segment.stop ≤ content.size →
    Terminated (segment.part content) → access.addSegment segment t = .ok () t' →
    ∃ observations, Reads (segment.part content) observations ∧
      Table.observeAll observations t = .ok () t'
  adds : ∀ {segment : Segment} {observations : List Observation} {t t' : Table hash},
    segment.stop ≤ content.size → Terminated (segment.part content) →
    segment.length + slack ≤ longestBuffer → Reads (segment.part content) observations →
    Table.observeAll observations t = .ok () t' → access.addSegment segment t = .ok () t'
  delivered : ∀ {segment : Segment} {bytes : Bytes}, segment.stop ≤ content.size →
    access.readSegment segment = .ok bytes → bytes = content.extract segment.offset segment.stop
  delivers : ∀ {segment : Segment}, segment.stop ≤ content.size →
    segment.length + slack ≤ longestBuffer →
    access.readSegment segment = .ok (content.extract segment.offset segment.stop)

/-- The access refuses no segment of the content for its length. -/
structure SegmentAccess.Reaches (access : SegmentAccess hash) (content : Bytes) : Prop where
  adds : ∀ {segment : Segment} {observations : List Observation} {t t' : Table hash},
    segment.stop ≤ content.size → Terminated (segment.part content) →
    Reads (segment.part content) observations → Table.observeAll observations t = .ok () t' →
    access.addSegment segment t = .ok () t'
  delivers : ∀ {segment : Segment}, segment.stop ≤ content.size →
    access.readSegment segment = .ok (content.extract segment.offset segment.stop)

/-- So it is if memory can hold the content and the slack. -/
theorem SegmentAccess.Serves.reaches {access : SegmentAccess hash} (h : access.Serves content)
    (hMemory : content.size + slack ≤ longestBuffer) : access.Reaches content := by
  have hLength {segment : Segment} (hInside : segment.stop ≤ content.size) :
      segment.length + slack ≤ longestBuffer := by
    rw [Segment.stop] at hInside
    omega
  exact
    { adds := fun hInside hTerminated hReads hObserved =>
        h.adds hInside hTerminated (hLength hInside) hReads hObserved
      delivers := fun hInside => h.delivers hInside (hLength hInside) }

/-- An opened file gives this content, as its length, by reads and by mapping. How much a read
delivers at a time is open, and so is how often reads through the handle are interrupted. An empty
file need not be mapped. -/
structure Opening.Serves (opening : Opening) (content : Bytes) : Prop where
  size_eq : opening.size = .ok content.size
  handle : opening.handle.Supplies content
  mapping_eq : 0 < content.size → opening.mapping = .ok content
  reopened : ∀ segment, ∃ source, opening.reopened segment = .ok source ∧ source.Serves content

theorem Opening.handle_ofContent (content : Bytes) :
    (ofContent content).handle = .ofBytes content := rfl

theorem Opening.serves_ofContent (content : Bytes) :
    (Opening.ofContent content).Serves content where
  size_eq := rfl
  handle := (Source.serves_ofBytes content).supplies
  mapping_eq _ := rfl
  reopened _ := ⟨_, rfl, Source.serves_ofBytes content⟩

/-- Views always do, and reads do with buffers that are long enough. -/
def Strategy.Accepted : Strategy → Prop
  | .mapped => True
  | .reads bufferSize => leastBuffer ≤ bufferSize

namespace Summary

/-- Access through a view of the content. -/
def viewed (hash : KeyHash) (content : Bytes) : SegmentAccess hash :=
  { addSegment := View.addSegment { bytes := content }
    readSegment := View.readSegment { bytes := content } }

theorem access_mapped {opening : Opening} (hOpening : opening.Serves content) (path : String)
    (calls : Nat) : access path opening content.size calls .mapped = .ok (viewed hash content) := by
  simp only [access, View.ofMapping_eq hOpening.mapping_eq, viewed]

theorem reaches_viewed (content : Bytes) : (viewed hash content).Reaches content where
  adds hInside hTerminated hReads hObserved :=
    (View.addSegment_ok_iff hInside hTerminated).mpr ⟨_, hReads, hObserved⟩
  delivers hInside := View.readSegment_eq hInside

theorem serves_viewed (content : Bytes) : (viewed hash content).Serves content where
  added hInside hTerminated hAdded := (View.addSegment_ok_iff hInside hTerminated).mp hAdded
  adds hInside hTerminated _ hReads hObserved :=
    (reaches_viewed content).adds hInside hTerminated hReads hObserved
  delivered hInside hRead := Except.ok.inj (hRead.symm.trans (View.readSegment_eq hInside))
  delivers hInside _ := View.readSegment_eq hInside

theorem serves_reads (file : OpenFile) (hHandle : file.handle.Supplies content)
    {reopened : Segment → Except ReadError Source}
    (hReopened : ∀ segment, ∃ source, reopened segment = .ok source ∧ source.Serves content) :
    SegmentAccess.Serves
      ({ addSegment := fun segment => file.addSegment (reopened segment) segment
         readSegment := file.readSegment } : SegmentAccess hash) content where
  added {segment t t'} hInside hTerminated hAdded := by
    obtain ⟨source, hSource, hServes⟩ := hReopened segment
    simp only [hSource] at hAdded
    exact ((OpenFile.addSegment_ok_iff file hServes hInside hTerminated).mp hAdded).2
  adds {segment observations t t'} hInside hTerminated hLength hReads hObserved := by
    obtain ⟨source, hSource, hServes⟩ := hReopened segment
    simp only [hSource]
    exact (OpenFile.addSegment_ok_iff file hServes hInside hTerminated).mpr
      ⟨OpenFile.bufferFor_le _ hLength, _, hReads, hObserved⟩
  delivered hInside hRead := ((OpenFile.readSegment_ok_iff _ hHandle hInside).mp hRead).2
  delivers hInside hLength :=
    (OpenFile.readSegment_ok_iff _ hHandle hInside).mpr ⟨(Nat.le_add_right _ _).trans hLength, rfl⟩

/-- With an accepted strategy there is access to the content that is served. -/
theorem exists_access {opening : Opening} (hOpening : opening.Serves content) (path : String)
    (calls : Nat) {strategy : Strategy} (hStrategy : strategy.Accepted) :
    ∃ served : SegmentAccess hash,
      access path opening content.size calls strategy = .ok served ∧ served.Serves content := by
  cases strategy with
  | mapped => exact ⟨_, access_mapped hOpening path calls, serves_viewed content⟩
  | reads bufferSize =>
      have hEnough : leastBuffer ≤ bufferSize := hStrategy
      refine ⟨_, ?_, serves_reads { path, handle := opening.handle.after calls, bufferSize }
        (hOpening.handle.after calls) hOpening.reopened⟩
      simp only [access, OpenFile.ofHandle, if_pos hEnough]

/-! ### The tables of the segments -/

section Tables

variable {served : SegmentAccess hash} {start stop : Nat} {segments : List Segment}
  {tables : List (Table hash)} {parts : List (List Observation)} {observations : List Observation}

theorem segmentTables_cons_ok_iff {first : Table hash} {segment : Segment} {rest : List Segment} :
    segmentTables served first (segment :: rest) = .ok tables ↔
      ∃ t more, served.addSegment segment first = .ok () t ∧
        segmentTables served first rest = .ok more ∧
        tables = t :: more := by
  rw [segmentTables]
  cases served.addSegment segment first with
  | error halt t => simp
  | ok _ t => cases segmentTables served first rest <;> simp [Except.map, eq_comm]

/-- The bytes of segments that follow one another are those of the first and those of the others. -/
theorem toList_extract_cons {segment : Segment} {rest : List Segment}
    (hTiles : Tiles start (segment :: rest) stop) :
    (content.extract start stop).toList = segment.part content ++
      (content.extract segment.stop stop).toList := by
  obtain ⟨rfl, -, hRest⟩ := hTiles
  have hOrder : segment.offset ≤ segment.stop := Nat.le_add_right _ _
  rw [← Table.toList_extract_segment, ← Array.toList_append, Array.extract_append_extract,
    Nat.min_eq_left hOrder, Nat.max_eq_right hRest.le]

/-- Segments that end behind line feeds hold whole lines. -/
theorem terminated_of_aligned (hTiles : Tiles start segments stop) (hStop : stop ≤ content.size)
    (hAligned : ∀ segment ∈ segments, content[segment.stop - 1]? = some lineFeed) :
    (∀ segment ∈ segments, Terminated (segment.part content)) ∧
      Terminated (content.extract start stop).toList := by
  induction segments generalizing start with
  | nil =>
      obtain rfl : start = stop := hTiles
      simp [terminated_nil]
  | cons segment rest ih =>
      rw [toList_extract_cons hTiles]
      obtain ⟨-, hSome, hRest⟩ := hTiles
      rw [List.forall_mem_cons] at hAligned
      have hFirst := (Table.terminated_part_iff hSome (hRest.le.trans hStop)).mpr hAligned.1
      obtain ⟨hOthers, hBehind⟩ := ih hRest hAligned.2
      exact ⟨List.forall_mem_cons.mpr ⟨hFirst, hOthers⟩, hFirst.append hBehind⟩

/-- The tables of the segments hold their lines. -/
theorem segmentTables_sound (hServes : served.Serves content) (hTiles : Tiles start segments stop)
    (hStop : stop ≤ content.size) (hWhole : ∀ segment ∈ segments, Terminated (segment.part content))
    (hTables : segmentTables served (Table.ofSize Table.runSize) segments = .ok tables) :
    ∃ parts, List.Forall₂ Table.Holds parts tables ∧
      Reads (content.extract start stop).toList parts.flatten := by
  induction segments generalizing start tables with
  | nil =>
      obtain rfl : start = stop := hTiles
      cases hTables
      exact ⟨[], .nil, by simp [reads_nil_iff]⟩
  | cons segment rest ih =>
      rw [toList_extract_cons hTiles]
      obtain ⟨-, -, hRest⟩ := hTiles
      rw [List.forall_mem_cons] at hWhole
      obtain ⟨t, more, hAdded, hMore, rfl⟩ := segmentTables_cons_ok_iff.mp hTables
      obtain ⟨first, hReads, hObserved⟩ := hServes.added (hRest.le.trans hStop) hWhole.1 hAdded
      obtain ⟨others, hHolds, hReadsOthers⟩ := ih hRest hWhole.2 hMore
      have hFirst := Table.holds_nil.observeAll hReads.forall_mem hObserved
      exact ⟨first :: others, .cons hFirst hHolds,
        (reads_append_iff hWhole.1).mpr ⟨first, others.flatten, hReads, hReadsOthers, rfl⟩⟩

/-- Lines that one table can hold are held by the tables of their segments. -/
theorem segmentTables_complete (hReaches : served.Reaches content)
    (hTiles : Tiles start segments stop) (hStop : stop ≤ content.size)
    (hWhole : ∀ segment ∈ segments, Terminated (segment.part content))
    (hReads : Reads (content.extract start stop).toList observations)
    (hManageable : Table.Manageable observations) :
    ∃ tables parts, segmentTables served (Table.ofSize Table.runSize) segments = .ok tables ∧
      List.Forall₂ Table.Holds parts tables ∧ parts.flatten = observations := by
  induction segments generalizing start observations with
  | nil =>
      obtain rfl : start = stop := hTiles
      simp only [Array.extract_eq_empty_of_le (Nat.min_le_left _ _), reads_nil_iff] at hReads
      subst hReads
      exact ⟨[], [], rfl, .nil, rfl⟩
  | cons segment rest ih =>
      rw [toList_extract_cons hTiles] at hReads
      obtain ⟨-, -, hRest⟩ := hTiles
      rw [List.forall_mem_cons] at hWhole
      obtain ⟨first, others, hFirst, hOthers, rfl⟩ := (reads_append_iff hWhole.1).mp hReads
      have hInside := hRest.le.trans hStop
      obtain ⟨t, hObserved⟩ := Table.holds_nil.exists_observeAll
        (hManageable.of_sublist (List.sublist_append_left first others))
      have hAdded := hReaches.adds hInside hWhole.1 hFirst hObserved
      obtain ⟨tables, parts, hTables, hHolds, rfl⟩ :=
        ih hRest hWhole.2 hOthers (hManageable.of_sublist (List.sublist_append_right first others))
      exact ⟨t :: tables, first :: parts,
        segmentTables_cons_ok_iff.mpr ⟨t, tables, hAdded, hTables, rfl⟩,
        .cons (Table.holds_nil.observeAll hFirst.forall_mem hObserved) hHolds, rfl⟩

/-! ### Merging the tables -/

theorem mergeInto_cons_ok_iff {t t' other : Table hash} {rest : List (Table hash)} :
    mergeInto t (other :: rest) = .ok t' ↔
      ∃ merged, Table.mergeFrom other t = .ok () merged ∧ mergeInto merged rest = .ok t' := by
  rw [mergeInto]
  cases Table.mergeFrom other t <;> simp

theorem holds_of_mergeInto {t t' : Table hash} (hHolds : t.Holds observations)
    (hTables : List.Forall₂ Table.Holds parts tables) (hMerged : mergeInto t tables = .ok t') :
    t'.Holds (observations ++ parts.flatten) := by
  induction hTables generalizing observations t with
  | nil =>
      cases hMerged
      rwa [List.flatten_nil, List.append_nil]
  | cons hOther _ ih =>
      obtain ⟨merged, hFirst, hRest⟩ := mergeInto_cons_ok_iff.mp hMerged
      rw [List.flatten_cons, ← List.append_assoc]
      exact ih (hHolds.mergeFrom hOther hFirst) hRest

theorem exists_mergeInto {t : Table hash} (hHolds : t.Holds observations)
    (hTables : List.Forall₂ Table.Holds parts tables)
    (hManageable : Table.Manageable (observations ++ parts.flatten)) :
    ∃ t', mergeInto t tables = .ok t' := by
  induction hTables generalizing observations t with
  | nil => exact ⟨t, rfl⟩
  | @cons first other others rest hOther _ ih =>
      rw [List.flatten_cons, ← List.append_assoc] at hManageable
      obtain ⟨merged, hFirst⟩ := hHolds.exists_mergeFrom hOther
        (hManageable.of_sublist (List.sublist_append_left _ _))
      obtain ⟨t', hRest⟩ := ih (hHolds.mergeFrom hOther hFirst) hManageable
      exact ⟨t', mergeInto_cons_ok_iff.mpr ⟨merged, hFirst, hRest⟩⟩

/-- The merged table holds what the tables hold. -/
theorem holds_of_mergeTables {t : Table hash} (hTables : List.Forall₂ Table.Holds parts tables)
    (hMerged : mergeTables (Table.ofSize Table.runSize) tables = .ok t) :
    t.Holds parts.flatten := by
  cases hTables with
  | nil =>
      cases hMerged
      exact Table.holds_nil
  | cons hFirst hRest => exact holds_of_mergeInto hFirst hRest hMerged

theorem exists_mergeTables (hTables : List.Forall₂ Table.Holds parts tables)
    (hManageable : Table.Manageable parts.flatten) :
    ∃ t, mergeTables (Table.ofSize Table.runSize) tables = .ok t := by
  cases hTables with
  | nil => exact ⟨_, rfl⟩
  | cons hFirst hRest => exact exists_mergeInto hFirst hRest hManageable

/-! ### The tail -/

theorem toList_completed_tail {tail : Segment} (hNone : tail.length = 0) :
    (Bytes.completed (content.extract tail.offset tail.stop)).toList = [] := by
  rw [Segment.stop, hNone, Nat.add_zero, Array.extract_eq_empty_of_le (Nat.min_le_left _ _)]
  rfl

/-- The tail is added as it is completed; nothing is added of an empty one. -/
theorem addTail_sound {tail : Segment} (hServes : served.Serves content)
    (hInside : tail.stop ≤ content.size) {t t' : Table hash} (hHolds : t.Holds observations)
    (hAdded : addTail served tail t = .ok t') :
    ∃ more, Reads (Bytes.completed (content.extract tail.offset tail.stop)).toList more ∧
      t'.Holds (observations ++ more) := by
  rw [addTail] at hAdded
  by_cases hNone : tail.length = 0
  · rw [if_pos hNone] at hAdded
    cases hAdded
    exact ⟨[], by rw [toList_completed_tail hNone, reads_nil_iff], by rwa [List.append_nil]⟩
  · rw [if_neg hNone] at hAdded
    cases hRead : served.readSegment tail with
    | error halt => simp [hRead] at hAdded
    | ok bytes =>
        obtain rfl := hServes.delivered hInside hRead
        simp only [hRead] at hAdded
        cases hCompleted : Table.addCompleted (content.extract tail.offset tail.stop) t with
        | error halt s => simp [hCompleted] at hAdded
        | ok _ s =>
            simp only [hCompleted] at hAdded
            cases hAdded
            obtain ⟨more, hReads, hObserved⟩ := Table.addCompleted_ok_iff.mp hCompleted
            exact ⟨more, hReads, hHolds.observeAll hReads.forall_mem hObserved⟩

theorem addTail_complete {tail : Segment} (hReaches : served.Reaches content)
    (hInside : tail.stop ≤ content.size) {t : Table hash}
    (hHolds : t.Holds observations) {more : List Observation}
    (hReads : Reads (Bytes.completed (content.extract tail.offset tail.stop)).toList more)
    (hManageable : Table.Manageable (observations ++ more)) :
    ∃ t', addTail served tail t = .ok t' ∧ t'.Holds (observations ++ more) := by
  rw [addTail]
  by_cases hNone : tail.length = 0
  · rw [toList_completed_tail hNone, reads_nil_iff] at hReads
    subst hReads
    exact ⟨t, if_pos hNone, by rwa [List.append_nil]⟩
  · rw [if_neg hNone]
    have hRead := hReaches.delivers hInside
    obtain ⟨t', hObserved⟩ := hHolds.exists_observeAll hManageable
    have hCompleted := Table.addCompleted_ok_iff.mpr ⟨more, hReads, hObserved⟩
    exact ⟨t', by simp only [hRead, hCompleted], hHolds.observeAll hReads.forall_mem hObserved⟩

end Tables

/-! ### The whole file -/

/-- A division of the whole content into segments that end behind line feeds and a tail, which is
not empty unless the content is. -/
structure Whole (s : Segmentation) (content : Bytes) : Prop where
  tiles : Tiles 0 s.segments s.tail.offset
  aligned : ∀ segment ∈ s.segments, content[segment.stop - 1]? = some lineFeed
  tail_stop : s.tail.stop = content.size
  empty : s.tail.length = 0 → content.size = 0

theorem whole_of_ofSource {source : Source} (hDelivers : source.Delivers content)
    {threads calls calls' : Nat}
    {s : Segmentation} (hDivided : Segmentation.ofSource source content.size threads calls =
      .ok s calls') :
    Whole s content := by
  rcases Segmentation.ofSource_cases hDelivers hDivided with ⟨-, rfl⟩ | ⟨-, hSplits⟩
  · exact ⟨rfl, by simp, Nat.zero_add _, id⟩
  · refine ⟨hSplits.tiles, hSplits.aligned, hSplits.tail_stop, fun hNone => ?_⟩
    have hSlack := hSplits.slack_le
    rw [hNone] at hSlack
    exact absurd hSlack (by decide)

section Collapse

variable {s : Segmentation} {served : SegmentAccess hash} {observations : List Observation}
  {text : String}

/-- The completed content is the segments and the completed tail. -/
theorem Whole.toList_completed (h : Whole s content) :
    content.completed.toList = (content.extract 0 s.tail.offset).toList ++
      (Bytes.completed (content.extract s.tail.offset s.tail.stop)).toList := by
  have hStop := h.tail_stop
  have hOrder : s.tail.offset ≤ s.tail.stop := Nat.le_add_right _ _
  have hContent : content.toList = (content.extract 0 s.tail.offset).toList ++
      (content.extract s.tail.offset s.tail.stop).toList := by
    rw [← Array.toList_append, Array.extract_append_extract, Nat.min_eq_left (Nat.zero_le _),
      Nat.max_eq_right hOrder, hStop, Array.extract_size]
  by_cases hNone : s.tail.length = 0
  · obtain rfl := Array.size_eq_zero_iff.mp (h.empty hNone)
    simp [Bytes.completed]
  · refine Bytes.toList_completed_of_append hContent fun hEmpty => hNone ?_
    have hSize := Table.size_extract_segment hStop.le
    rw [← hSize, ← Array.length_toList, hEmpty, List.length_nil]

/-- The stages of a summary. -/
theorem ofSegmentation_ok_iff_stages :
    ofSegmentation served s = .ok text ↔ ∃ tables merged t,
      segmentTables served (Table.ofSize Table.runSize) s.segments = .ok tables ∧
        mergeTables (Table.ofSize Table.runSize) tables = .ok merged ∧
          addTail served s.tail merged = .ok t ∧
          t.report = .ok text := by
  simp only [ofSegmentation, Table.withCapacity_stationCount]
  cases segmentTables served (Table.ofSize Table.runSize) s.segments with
  | error halt => simp
  | ok tables =>
      cases hMerged : mergeTables (Table.ofSize Table.runSize) tables with
      | error fault => simp [hMerged]
      | ok merged =>
          cases hTail : addTail served s.tail merged with
          | error halt => simp [hMerged, hTail]
          | ok t => cases hReport : t.report <;> simp [hMerged, hTail, hReport]

/-- As many rows as a table can count fit memory. -/
theorem size_add_slack_le (hReads : Reads content.completed.toList observations)
    (hCount : observations.length < 2 ^ 31) : content.size + slack ≤ longestBuffer := by
  have hLength := hReads.length_le content.terminated_completed
  have hShorter : content.toList.length ≤ content.completed.toList.length := by
    rw [Bytes.toList_completed]
    split
    · exact Nat.le_refl _
    · rw [List.length_append]
      exact Nat.le_add_right _ _
  rw [Array.length_toList] at hShorter
  simp only [longestName, slack, cacheLine, longestBuffer, UInt64.size] at hLength ⊢
  omega

/-- A divided content is summarised by the report on its lines, if one table has room for their
stations and there is such a report. -/
theorem ofSegmentation_ok_iff (hServes : served.Serves content) (h : Whole s content)
    (hLines : (lines content.completed.toList).length < 2 ^ 31) :
    ofSegmentation served s = .ok text ↔
      ∃ observations, Reads content.completed.toList observations ∧
      (observations.map Observation.name).dedup.length ≤ Table.runSize.slots.toNat ∧
        Report.IsReport observations text := by
  have hStop : s.tail.offset ≤ content.size := by
    rw [← h.tail_stop]
    exact Nat.le_add_right _ _
  obtain ⟨hWhole, hTerminated⟩ := terminated_of_aligned h.tiles hStop h.aligned
  have hCount {observations : List Observation}
      (hReads : Reads content.completed.toList observations) :
      observations.length < 2 ^ 31 := by
    rwa [← List.Forall₂.length_eq hReads]
  rw [ofSegmentation_ok_iff_stages]
  constructor
  · rintro ⟨tables, merged, t, hTables, hMerged, hTail, hReport⟩
    obtain ⟨parts, hParts, hReads⟩ := segmentTables_sound hServes h.tiles hStop hWhole hTables
    obtain ⟨more, hMore, hHolds⟩ :=
      addTail_sound hServes h.tail_stop.le (holds_of_mergeTables hParts hMerged) hTail
    have hAll : Reads content.completed.toList (parts.flatten ++ more) := by
      rw [h.toList_completed, reads_append_iff hTerminated]
      exact ⟨_, _, hReads, hMore, rfl⟩
    exact ⟨_, hAll, hHolds.length_dedup_le,
      (hHolds.report_ok_iff hAll.forall_mem (hCount hAll)).mp hReport⟩
  · rintro ⟨observations, hAll, hStations, hReport⟩
    have hReaches := hServes.reaches (size_add_slack_le hAll (hCount hAll))
    have hManageable : Table.Manageable observations := ⟨hStations, hCount hAll, hAll.forall_mem⟩
    have hLegal := hAll.forall_mem
    have hFew := hCount hAll
    rw [h.toList_completed, reads_append_iff hTerminated] at hAll
    obtain ⟨before, more, hBefore, hMore, rfl⟩ := hAll
    obtain ⟨tables, parts, hTables, hParts, rfl⟩ :=
      segmentTables_complete hReaches h.tiles hStop hWhole hBefore
        (hManageable.of_sublist (List.sublist_append_left before more))
    obtain ⟨merged, hMerged⟩ :=
      exists_mergeTables hParts (hManageable.of_sublist (List.sublist_append_left _ more))
    have hHolds := holds_of_mergeTables hParts hMerged
    obtain ⟨t, hTail, hFinal⟩ := addTail_complete hReaches h.tail_stop.le hHolds hMore hManageable
    exact ⟨tables, merged, t, hTables, hMerged, hTail,
      (hFinal.report_ok_iff hLegal hFew).mpr hReport⟩

end Collapse

/-- A content has lines as short as it has when it is completed, and no longer rest behind them. -/
theorem linesWithin_of_completed {longest : Nat}
    (hShort : ∀ line ∈ lines content.completed.toList, line.length < longest) :
    content.LinesWithin longest := by
  have hWhole := Bytes.terminated_take_wholeRows content content.size
  have hRest := Bytes.lineFeed_not_mem_drop_wholeRows content content.size
  have hSplit := List.take_append_drop (content.wholeRows content.size) content.toList
  rw [← Array.length_toList, List.take_length, Array.length_toList] at hRest
  have hRestLength : (content.toList.drop (content.wholeRows content.size)).length =
      content.size - content.wholeRows content.size := by rw [List.length_drop, Array.length_toList]
  have hCompleted := content.toList_completed
  generalize content.toList.take (content.wholeRows content.size) = whole at hWhole hSplit
  generalize content.toList.drop (content.wholeRows content.size) = rest at hRest hSplit hRestLength
  rw [← hSplit] at hCompleted
  constructor
  · intro line hLine
    rw [← hSplit, lines_append hWhole, lines_eq_nil hRest, List.append_nil] at hLine
    apply hShort line
    rw [hCompleted]
    split
    · rw [lines_append hWhole]
      exact List.mem_append_left _ hLine
    · rw [List.append_assoc, lines_append hWhole]
      exact List.mem_append_left _ hLine
  · -- The rest is a line of its own once it is completed, unless there is none.
    rw [← hRestLength]
    by_cases hNone : rest = []
    · rw [hNone]
      exact Nat.zero_le longest
    · have hOpen : ¬ Terminated (whole ++ rest) := fun hEnds => hRest (hEnds.of_append.mem hNone)
      rw [if_neg hOpen, List.append_assoc] at hCompleted
      refine (hShort rest ?_).le
      rw [hCompleted, lines_append hWhole, lines_cons_line hRest]
      exact List.mem_append_right _ List.mem_cons_self

/-- The lines of a file of rows are as short as rows are. -/
theorem linesWithin_of_reads {observations : List Observation}
    (hReads : Reads content.completed.toList observations) :
    content.LinesWithin (searchWindow - slack) := by
  apply linesWithin_of_completed
  intro line hLine
  obtain ⟨o, hRow⟩ := exists_reads_iff.mp ⟨observations, hReads⟩ line hLine
  exact hRow.length_lt.trans (by decide)

theorem ofFile_ok (path : String) (content : Bytes) (threads : Nat) (strategy : Strategy) :
    ofFile path (.ok content) threads strategy =
      ofOpened path (.ok (.ofContent content)) threads strategy :=
  rfl

/-- What is reported of a view once the file has been divided. -/
theorem ofOpened_mapped {opening : Opening} (hOpening : opening.Serves content) (path : String)
    (threads : Nat) : ofOpened path (.ok opening) threads .mapped =
      match Segmentation.ofSource opening.handle content.size threads 0 with
      | .error cause _ => .error (.failed (.notSegmented path cause))
      | .ok s _ => ofSegmentation (viewed KeyHash.fnv1a content) s := by
  cases hDivided : Segmentation.ofSource opening.handle content.size threads 0 <;>
    simp only [ofOpened, hOpening.size_eq, hDivided, access_mapped hOpening]

/-- A file is summarised by the report on its lines, whatever the number of threads and the
strategy. -/
theorem ofOpened_ok_iff {opening : Opening} (hOpening : opening.Serves content) (path : String)
    (threads : Nat) {strategy : Strategy} (hStrategy : strategy.Accepted)
    (hLines : (lines content.completed.toList).length < 2 ^ 31) {text : String} :
    ofOpened path (.ok opening) threads strategy = .ok text ↔
      ∃ observations, Reads content.completed.toList observations ∧
        (observations.map Observation.name).dedup.length ≤ Table.runSize.slots.toNat ∧
          Report.IsReport observations text := by
  have hDelivers := hOpening.handle.toDelivers
  have hAccess (calls : Nat) : ∃ served : SegmentAccess KeyHash.fnv1a,
      access path opening content.size calls strategy = .ok served ∧ served.Serves content :=
    exists_access hOpening path calls hStrategy
  simp only [ofOpened, hOpening.size_eq]
  constructor
  · intro hText
    cases hDivided : Segmentation.ofSource opening.handle content.size threads 0 with
    | error cause calls => simp [hDivided] at hText
    | ok s calls =>
        obtain ⟨served, hServed, hServes⟩ := hAccess calls
        simp only [hDivided, hServed] at hText
        exact (ofSegmentation_ok_iff hServes (whole_of_ofSource hDelivers hDivided) hLines).mp hText
  · rintro ⟨observations, hReads, hReport⟩
    obtain ⟨s, calls, hDivided, -⟩ := Segmentation.exists_ofSource_of_linesWithin hOpening.handle
      (linesWithin_of_reads hReads) threads 0
    obtain ⟨served, hServed, hServes⟩ := hAccess calls
    simp only [hDivided, hServed]
    exact (ofSegmentation_ok_iff hServes (whole_of_ofSource hDelivers hDivided) hLines).mpr
      ⟨observations, hReads, hReport⟩

/-- What a content has to be to be summarised: all its lines are rows, there are not too many
stations among them, and their names are texts. -/
structure Summarisable (content : Bytes) : Prop where
  rows : ∀ line ∈ lines content.completed.toList, ∃ o, IsRow line o
  stations : ((lines content.completed.toList).map nameOf).dedup.length ≤ 12973
  names : ∀ line ∈ lines content.completed.toList, (nameOf line).toByteArray.IsValidUTF8

theorem summarisable_iff {observations : List Observation}
    (hReads : Reads content.completed.toList observations) :
    Summarisable content ↔
      (observations.map Observation.name).dedup.length ≤ Table.runSize.slots.toNat ∧
      ∃ text, Report.IsReport observations text := by
  rw [Report.exists_isReport_iff, hReads.names_eq]
  constructor
  · rintro ⟨-, hStations, hNames⟩
    refine ⟨hStations, fun name hName => ?_⟩
    obtain ⟨line, hLine, rfl⟩ := List.mem_map.mp hName
    exact hNames line hLine
  · rintro ⟨hStations, hNames⟩
    exact ⟨exists_reads_iff.mp ⟨_, hReads⟩, hStations,
      fun line hLine => hNames _ (List.mem_map_of_mem hLine)⟩

/-- A file is summarised exactly if its lines are rows of not too many stations whose names are
texts; the summary is the report on its lines, one after the other. It depends neither on the number
of threads nor on how the file is read, and not on how the reads that serve the content are cut. -/
theorem ofOpened_summarises {opening : Opening} (hOpening : opening.Serves content) (path : String)
    (threads : Nat) {strategy : Strategy} (hStrategy : strategy.Accepted)
    (hLines : (lines content.completed.toList).length < 2 ^ 31) :
    ((∃ text, ofOpened path (.ok opening) threads strategy = .ok text) ↔ Summarisable content) ∧
    (∀ text, ofOpened path (.ok opening) threads strategy = .ok text ↔ Summarisable content ∧
      ∃ observations, Reads content.completed.toList observations ∧
        Report.IsReport observations text) ∧
    ∀ (opening' : Opening) (threads' : Nat) (strategy' : Strategy), opening'.Serves content →
      strategy'.Accepted → ∀ text, ofOpened path (.ok opening) threads strategy = .ok text ↔
        ofOpened path (.ok opening') threads' strategy' = .ok text := by
  have hText (text : String) : ofOpened path (.ok opening) threads strategy = .ok text ↔
      Summarisable content ∧
        ∃ observations, Reads content.completed.toList observations ∧
          Report.IsReport observations text := by
    rw [ofOpened_ok_iff hOpening path threads hStrategy hLines]
    constructor
    · rintro ⟨observations, hReads, hStations, hReport⟩
      exact ⟨(summarisable_iff hReads).mpr ⟨hStations, text, hReport⟩, observations, hReads,
        hReport⟩
    · rintro ⟨hSummarisable, observations, hReads, hReport⟩
      exact ⟨observations, hReads, ((summarisable_iff hReads).mp hSummarisable).1, hReport⟩
  refine ⟨?_, hText, fun opening' threads' strategy' hOpening' hStrategy' text => ?_⟩
  · constructor
    · rintro ⟨text, hSummarised⟩
      exact ((hText text).mp hSummarised).1
    · intro hSummarisable
      obtain ⟨observations, hReads⟩ := exists_reads_iff.mpr hSummarisable.rows
      obtain ⟨-, text, hReport⟩ := (summarisable_iff hReads).mp hSummarisable
      exact ⟨text, (hText text).mpr ⟨hSummarisable, observations, hReads, hReport⟩⟩
  · rw [ofOpened_ok_iff hOpening path threads hStrategy hLines,
      ofOpened_ok_iff hOpening' path threads' hStrategy' hLines]

/-! ### A file in several segments -/

/-- A reading of one station, many of another, and a last line of the first one without a line
feed. -/
def readings (n : Nat) : Bytes :=
  ([98, 59, 49, 46, 48, 10] ++ (List.replicate n [97, 59, 45, 50, 46, 53, 10]).flatten ++
    [98, 59, 50, 46, 49] : List UInt8).toArray

/-- What they say. -/
def observed (n : Nat) : List Observation :=
  [⟨[98], 10⟩] ++ List.replicate n ⟨[97], -25⟩ ++ [⟨[98], 21⟩]

theorem size_readings (n : Nat) : (readings n).size = 7 * n + 11 := by
  simp only [readings, List.size_toArray, List.length_append, List.length_flatten,
    List.map_replicate, List.sum_replicate_nat, List.length_cons, List.length_nil]
  omega

theorem reads_readings (n : Nat) : Reads (readings n).completed.toList (observed n) := by
  have hFirst : IsRow ([98] ++ separator :: [49, point, 48]) ⟨[98], 10⟩ :=
    .mk (by decide) (by decide) (by decide) (.unsigned (.short (by decide) (by decide)))
  have hMiddle : IsRow ([97] ++ separator :: [minus, 50, point, 53]) ⟨[97], -25⟩ :=
    .mk (by decide) (by decide) (by decide) (.signed (.short (by decide) (by decide)))
  have hLast : IsRow ([98] ++ separator :: [50, point, 49]) ⟨[98], 21⟩ :=
    .mk (by decide) (by decide) (by decide) (.unsigned (.short (by decide) (by decide)))
  obtain ⟨hTerminated, hReads⟩ := reads_replicate hMiddle n
  have hHead : Terminated ([98] ++ separator :: [49, point, 48] ++ [lineFeed]) := by decide
  have hText : (readings n).toList = [98] ++ separator :: [49, point, 48] ++ [lineFeed] ++
      (List.replicate n ([97] ++ separator :: [minus, 50, point, 53] ++ [lineFeed])).flatten ++
        (#[98, 59, 50, 46, 49] : Bytes).toList := rfl
  rw [Bytes.toList_completed_of_append hText (by decide),
    reads_append_iff (hHead.append hTerminated)]
  refine ⟨_, [⟨[98], 21⟩], ?_, .cons hLast .nil, rfl⟩
  exact (reads_append_iff hHead).mpr ⟨[⟨[98], 10⟩], _, .cons hFirst .nil, hReads, rfl⟩

theorem mem_names_observed {n : Nat} (hSome : 0 < n) (name : List UInt8) :
    name ∈ [[97], [98]] ↔ name ∈ (observed n).map Observation.name := by
  have hMany := hSome.ne'
  simp only [observed, List.map_append, List.map_replicate, List.map_cons, List.map_nil,
    List.mem_append, List.mem_replicate, List.mem_cons, List.not_mem_nil, or_false]
  tauto

theorem isReport_readings {n : Nat} (hSome : 0 < n) :
    Report.IsReport (observed n) "\x7ba=-2.5/-2.5/-2.5, b=1.0/1.6/2.1\x7d\n" := by
  have hReadingsA : Listing.readingsOf (observed n) [97] = List.replicate n (-25) := by
    simp [Listing.readingsOf, observed]
  have hReadingsB : Listing.readingsOf (observed n) [98] = [10, 21] := by
    simp [Listing.readingsOf, observed]
  have hNearest :
      Tenths.IsNearest (List.replicate n (-25)).sum (List.replicate n (-25)).length (-25) := by
    rw [List.sum_replicate, List.length_replicate, nsmul_eq_mul]
    exact ⟨by simp, by omega⟩
  have hA : Report.IsEntry (observed n) [97]
      ("a" ++ "=" ++
        (Tenths.decimal (-25) ++ "/" ++ Tenths.decimal (-25) ++ "/" ++ Tenths.decimal (-25))) := by
    apply Report.IsEntry.mk (by decide)
    all_goals rw [hReadingsA]
    · exact List.min?_replicate_of_pos hSome
    · exact hNearest
    · exact List.max?_replicate_of_pos hSome
  have hB : Report.IsEntry (observed n) [98]
      ("b" ++ "=" ++
        (Tenths.decimal 10 ++ "/" ++ Tenths.decimal 16 ++ "/" ++ Tenths.decimal 21)) := by
    apply Report.IsEntry.mk (by decide)
    all_goals rw [hReadingsB]
    · decide
    · exact ⟨by decide, by decide⟩
    · decide
  have hOrder : ([[97], [98]] : List (List UInt8)).Pairwise (· < ·) := by decide
  exact .mk hOrder (mem_names_observed hSome) (.cons hA (.cons hB .nil))

/-- An opened file whose reads deliver a hundred bytes at most and of which one is interrupted. -/
def choppy (content : Bytes) : Opening where
  size := .ok content.size
  handle := (Schedule.mk (some 100) [(1, .failure .interrupted)]).source content
  mapping := .ok content
  reopened _ := .ok ((Schedule.mk (some 100) []).source content)

theorem serves_choppy (content : Bytes) : (choppy content).Serves content where
  size_eq := rfl
  handle := Source.supplies_schedule (by simp) (by simp) content
  mapping_eq _ := rfl
  reopened _ := ⟨_, rfl, Source.serves_schedule (by decide) content⟩

/-- Ten thousand and two readings in two segments and a tail, read piece by piece into the shortest
buffers. -/
theorem ofOpened_summarises_two_segments :
    ∃ s calls, Segmentation.ofSource (choppy (readings 10000)).handle (readings 10000).size 2 0 =
      .ok s calls ∧
      s.segments.length = 2 ∧ ofOpened "m" (.ok (choppy (readings 10000))) 2 (.reads 256) =
        .ok "\x7ba=-2.5/-2.5/-2.5, b=1.0/1.6/2.1\x7d\n" := by
  have hReads := reads_readings 10000
  have hReport := isReport_readings (show 0 < 10000 by decide)
  have hServes := serves_choppy (readings 10000)
  have hAccepted : Strategy.Accepted (.reads 256) := show leastBuffer ≤ 256 by decide
  have hLines : (lines (readings 10000).completed.toList).length < 2 ^ 31 := by
    rw [List.Forall₂.length_eq hReads, observed, List.length_append, List.length_append,
      List.length_replicate]
    decide
  have hNames : (observed 10000).map Observation.name ⊆ [[97], [98]] := fun name =>
    (mem_names_observed (by decide) name).mpr
  have hStations := (Table.length_dedup_le hNames).trans
    (show ([[97], [98]] : List (List UInt8)).dedup.length ≤ Table.runSize.slots.toNat by decide)
  obtain ⟨s, calls, hDivided, hCount⟩ := Segmentation.exists_ofSource_of_linesWithin hServes.handle
    (linesWithin_of_reads hReads) 2 0
  refine ⟨s, calls, hDivided, ?_, ?_⟩
  · rw [hCount, size_readings]
    decide
  · exact ((ofOpened_summarises hServes "m" 2 hAccepted hLines).2.1 _).mpr
      ⟨(summarisable_iff hReads).mpr ⟨hStations, _, hReport⟩, _, hReads, hReport⟩

end Summary

end StationStats
