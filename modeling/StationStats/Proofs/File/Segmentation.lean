import StationStats.File.Segmentation
import StationStats.Proofs.File.Source

/-!
The division of a file. Whatever the reads deliver and whatever goes wrong before them,
segments that are returned follow one another without gaps, end behind line feeds, and leave
enough bytes behind them.
-/

namespace StationStats

/-- Segments that follow one another from one position to another, none of them empty. -/
def Tiles : Nat → List Segment → Nat → Prop
  | start, [], stop => start = stop
  | start, segment :: rest, stop =>
      segment.offset = start ∧ 0 < segment.length ∧ Tiles segment.stop rest stop

theorem Tiles.le {start stop : Nat} {segments : List Segment} (h : Tiles start segments stop) :
    start ≤ stop := by
  induction segments generalizing start with
  | nil => exact Nat.le_of_eq h
  | cons segment rest ih =>
      obtain ⟨hStart, -, hRest⟩ := h
      have := ih hRest
      rw [Segment.stop] at this
      omega

theorem Tiles.stop_le {start stop : Nat} {segments : List Segment} (h : Tiles start segments stop)
    {segment : Segment} (hMem : segment ∈ segments) : segment.stop ≤ stop := by
  induction segments generalizing start with
  | nil => simp at hMem
  | cons first rest ih =>
      obtain ⟨-, -, hRest⟩ := h
      rcases List.mem_cons.mp hMem with rfl | hMem
      · exact hRest.le
      · exact ih hRest hMem

/-- The position is one of those of the segment. -/
def Segment.covers (segment : Segment) (position : Nat) : Bool :=
  segment.offset ≤ position && position < segment.stop

theorem Segment.covers_iff {segment : Segment} {position : Nat} :
    segment.covers position = true ↔ segment.offset ≤ position ∧ position < segment.stop := by
  rw [Segment.covers, Bool.and_eq_true, decide_eq_true_eq, decide_eq_true_eq]

/-- Each position between the two ends is in exactly one of the segments, and no other is in any. -/
theorem Tiles.countP_eq {start stop : Nat} {segments : List Segment} (h : Tiles start segments stop)
    (position : Nat) :
    segments.countP (Segment.covers · position) = if start ≤ position ∧
      position < stop then 1 else 0 := by
  induction segments generalizing start with
  | nil =>
      have hEmpty : start = stop := h
      rw [List.countP_nil, if_neg (by omega)]
  | cons segment rest ih =>
      obtain ⟨hStart, hSome, hRest⟩ := h
      have hEnd := hRest.le
      have hCovers : segment.covers position = true ↔
          start ≤ position ∧ position < segment.stop := by
        rw [Segment.covers_iff, hStart]
      have hGrows : start < segment.stop := by
        rw [Segment.stop]
        omega
      rw [List.countP_cons, ih hRest]
      by_cases hHere : segment.covers position = true
      · have := hCovers.mp hHere
        rw [if_pos hHere, if_neg (by omega), if_pos (by omega)]
      · have := mt hCovers.mpr hHere
        rw [if_neg hHere]
        by_cases hLater : segment.stop ≤ position ∧ position < stop
        · rw [if_pos hLater, if_pos (by omega)]
        · rw [if_neg hLater, if_neg (by omega)]

/-- What a division has to be, whatever it was made from: segments from the start of the file
to the tail and the tail up to its end, with a line feed before each end of a segment and
enough bytes behind it. -/
structure Segmentation.Divides (s : Segmentation) (content : Bytes) (fileLength : Nat) : Prop where
  tiles : Tiles 0 s.segments s.tail.offset
  tail_stop : s.tail.stop = fileLength
  once : ∀ position < fileLength, (s.segments ++ [s.tail]).countP (Segment.covers · position) = 1
  aligned : ∀ segment ∈ s.segments, content[segment.stop - 1]? = some lineFeed
  segments_eq_nil : fileLength < splitThreshold → s.segments = []
  segments_ne_nil : splitThreshold ≤ fileLength → s.segments ≠ []
  spare : splitThreshold ≤ fileLength → ∀ segment ∈ s.segments, segment.stop + slack ≤ fileLength
  tail_length : splitThreshold ≤ fileLength → slack ≤ s.tail.length ∧ s.tail.length < splitThreshold

namespace Segmentation

variable {source : Source} {content : Bytes} {fileLength : Nat}

/-- A window shows a part of the content. -/
theorem window_ok (hDelivers : source.Delivers content) {offset wanted calls calls' : Nat}
    {bytes : Bytes} (hWindow : window source offset wanted calls = .ok bytes calls') :
    bytes = content.extract offset (offset + bytes.size) ∧ bytes.size ≤ wanted := by
  rw [window] at hWindow
  cases hCollected : source.collect offset wanted calls #[] with
  | error error d => simp [hCollected] at hWindow
  | ok u d =>
      simp only [hCollected] at hWindow
      cases hWindow
      exact hDelivers.collect hCollected

/-- A byte of a window is a byte of the content. -/
theorem getElem?_window {offset i : Nat} {bytes : Bytes}
    (hBytes : bytes = content.extract offset (offset + bytes.size)) (hIndex : i < bytes.size) :
    bytes[i]? = content[offset + i]? := by
  have hSize := congrArg Array.size hBytes
  rw [Array.size_extract] at hSize
  rw [hBytes, Array.getElem?_extract, if_pos (by omega)]

theorem lineFeedFrom?_eq_some (hDelivers : source.Delivers content)
    {position calls calls' found : Nat}
    (hFound : lineFeedFrom? source fileLength position calls = .ok (some found) calls') :
    content[found]? = some lineFeed := by
  fun_induction lineFeedFrom? source fileLength position calls with
  | case1 => cases hFound
  | case2 => cases hFound
  | case3 position calls hInside bytes s hWindow hSome i hFirst =>
      cases hFound
      rw [Bytes.firstLineFeed?, Array.findIdx?_eq_some_iff_getElem] at hFirst
      obtain ⟨hIndex, hMatch, -⟩ := hFirst
      rw [← getElem?_window (window_ok hDelivers hWindow).1 hIndex,
        Array.getElem?_eq_getElem hIndex, beq_iff_eq.mp hMatch]
  | case4 position calls hInside bytes s hWindow hSome hNone ih => exact ih hFound
  | case5 => cases hFound

/-- The tail starts behind a line feed among the searched bytes. -/
theorem tailStart_eq (hDelivers : source.Delivers content) {calls calls' tail : Nat}
    (hTail : tailStart source fileLength calls = .ok tail calls') :
    fileLength - searchWindow < tail ∧
      tail ≤ fileLength - searchWindow + (fileLength - slack - (fileLength - searchWindow)) ∧
      content[tail - 1]? = some lineFeed := by
  simp only [tailStart] at hTail
  cases hWindow : window source (fileLength - searchWindow)
    (fileLength - slack - (fileLength - searchWindow)) calls with
  | error error s => simp [hWindow] at hTail
  | ok bytes s =>
      simp only [hWindow] at hTail
      cases hLast : bytes.lastLineFeed? bytes.size with
      | none => simp [hLast] at hTail
      | some i =>
          simp only [hLast] at hTail
          cases hTail
          obtain ⟨hBytes, hSize⟩ := window_ok hDelivers hWindow
          obtain ⟨hIndex, hAt, -⟩ := Bytes.lastLineFeed?_eq_some hLast
          refine ⟨by omega, by omega, ?_⟩
          rw [Nat.add_sub_cancel, ← getElem?_window hBytes hIndex, ← Array.getElem?_toList]
          exact hAt

/-- Where a segment ends if this line feed is found for it. -/
def stopFor (tail : Nat) (found : Option Nat) :
    Nat := found.elim tail fun position => min (position + 1) tail

theorem stopFor_le (tail : Nat) (found : Option Nat) : stopFor tail found ≤ tail := by
  cases found with
  | none => exact Nat.le_refl tail
  | some position => exact Nat.min_le_right _ _

/-- A segment ends behind a line feed. -/
theorem lineFeed_before_stopFor (hDelivers : source.Delivers content) {tail : Nat}
    (hTail : content[tail - 1]? = some lineFeed) {found : Option Nat} {position calls calls' : Nat}
    (hFound : lineFeedFrom? source fileLength position calls = .ok found calls') :
    content[stopFor tail found - 1]? = some lineFeed := by
  cases found with
  | none => exact hTail
  | some i =>
      rw [stopFor, Option.elim]
      rcases Nat.le_total (i + 1) tail with hBefore | hBehind
      · rw [Nat.min_eq_left hBefore, Nat.add_sub_cancel]
        exact lineFeedFrom?_eq_some hDelivers hFound
      · rw [Nat.min_eq_right hBehind]
        exact hTail

/-- One range: either a segment ends for it, or it is passed over. -/
theorem align_cons_ok_iff {raw : Segment} {rest segments : List Segment}
    {tail previous calls calls' : Nat} :
    align source fileLength tail previous (raw :: rest) calls = .ok segments calls' ↔
      ∃ found between, lineFeedFrom? source fileLength raw.stop calls = .ok found between ∧
        (previous < stopFor tail found ∧ (∃ more,
            align source fileLength tail (stopFor tail found) rest between = .ok more calls' ∧
              segments = { offset := previous, length := stopFor tail found - previous } :: more) ∨
          ¬ previous < stopFor tail found ∧
            align source fileLength tail previous rest between = .ok segments calls') := by
  simp only [align]
  cases lineFeedFrom? source fileLength raw.stop calls with
  | error error between => simp
  | ok found between =>
      have hOnly {P : Option Nat → Nat → Prop} : (∃ other after, EStateM.Result.ok found between =
          (.ok other after : EStateM.Result ReadError Nat (Option Nat)) ∧ P other after) ↔
            P found between := by
        simp [EStateM.Result.ok.injEq]
      rw [hOnly]
      cases found with
      | none =>
          simp only [stopFor, Option.elim]
          by_cases hMore : previous < tail
          · simp only [if_pos hMore]
            cases align source fileLength tail tail rest between <;>
              simp [hMore, eq_comm, and_comm]
          · simp [hMore]
      | some position =>
          simp only [stopFor, Option.elim]
          by_cases hMore : previous < min (position + 1) tail
          · simp only [if_pos hMore]
            cases align source fileLength tail (min (position + 1) tail) rest between <;>
              simp [hMore, eq_comm, and_comm]
          · simp [hMore]

/-- The aligned segments tile the file up to the tail, each of them up to a line feed. -/
theorem align_ok (hDelivers : source.Delivers content) {tail : Nat}
    (hTail : content[tail - 1]? = some lineFeed) (ranges : List Segment)
    {previous calls calls' : Nat} (hPrevious : previous ≤ tail) {segments : List Segment}
    (hAligned : align source fileLength tail previous ranges calls = .ok segments calls') :
    Tiles previous segments tail ∧
      ∀ segment ∈ segments, content[segment.stop - 1]? = some lineFeed := by
  induction ranges generalizing previous calls segments with
  | nil =>
      by_cases hMore : previous < tail
      · simp only [align, if_pos hMore] at hAligned
        cases hAligned
        have hStop : previous + (tail - previous) = tail := by omega
        refine ⟨⟨rfl, Nat.sub_pos_of_lt hMore, hStop⟩, fun segment hSegment => ?_⟩
        rw [List.mem_singleton.mp hSegment, Segment.stop, hStop]
        exact hTail
      · simp only [align, if_neg hMore] at hAligned
        cases hAligned
        exact ⟨by rw [Tiles]; omega, by simp⟩
  | cons raw rest ih =>
      obtain ⟨found, between, hFound, hCases⟩ := align_cons_ok_iff.mp hAligned
      rcases hCases with ⟨hMore, more, hRest, rfl⟩ | ⟨-, hRest⟩
      · obtain ⟨hTiles, hFeeds⟩ := ih (stopFor_le tail found) hRest
        have hEnd : previous + (stopFor tail found - previous) = stopFor tail found := by omega
        refine ⟨⟨rfl, Nat.sub_pos_of_lt hMore, ?_⟩, List.forall_mem_cons.mpr ⟨?_, hFeeds⟩⟩
        · rw [Segment.stop, hEnd]
          exact hTiles
        · rw [Segment.stop, hEnd]
          exact lineFeed_before_stopFor hDelivers hTail hFound
      · exact ih hPrevious hRest

/-- Only the ranges of a file below the threshold are that short. -/
theorem rawLength_lt_splitThreshold_iff (fileLength threads : Nat) :
    Segment.rawLength fileLength threads < splitThreshold ↔ fileLength < splitThreshold := by
  simp only [Segment.rawLength, splitThreshold, leastSegment, slack, cacheLine]
  omega

/-- Exactly the files below the threshold are not split. -/
theorem raw_isEmpty_iff (fileLength threads : Nat) :
    (Segment.raw fileLength threads).isEmpty = true ↔ fileLength < splitThreshold := by
  have hLength := rawLength_lt_splitThreshold_iff fileLength threads
  rw [Segment.raw]
  by_cases hShort : fileLength < splitThreshold
  · simp [hLength.mpr hShort, hShort]
  · have hPos : 0 < Segment.rawLength fileLength threads := by
      have := mt hLength.mp hShort
      simp only [splitThreshold, slack, cacheLine] at this
      omega
    have hLe : Segment.rawLength fileLength threads ≤ fileLength := Nat.min_le_right _ _
    have hCount := Nat.div_pos hLe hPos
    have hSome : (List.range (fileLength / Segment.rawLength fileLength threads)) ≠ [] := by
      rw [Ne, List.range_eq_nil]
      omega
    simp [mt hLength.mp hShort, hShort, hSome]

/-! ### Division of what is supplied -/

/-- A window on a supplied content shows all that is wanted and there. -/
theorem exists_window (hSupplies : source.Supplies content) (offset wanted calls : Nat) :
    ∃ calls', window source offset wanted calls =
      .ok (content.extract offset (offset + wanted)) calls' := by
  obtain ⟨calls', hCollected⟩ := hSupplies.collect offset wanted calls
  exact ⟨calls', by simp only [window, hCollected]⟩

theorem exists_lineFeedFrom? (hSupplies : source.Supplies content)
    (fileLength position calls : Nat) :
    ∃ found calls', lineFeedFrom? source fileLength position calls = .ok found calls' := by
  fun_induction lineFeedFrom? source fileLength position calls with
  | case1 position calls hInside error s hWindow =>
      obtain ⟨calls', hShown⟩ := exists_window hSupplies position searchWindow calls
      cases hWindow.symm.trans hShown
  | case2 => exact ⟨_, _, rfl⟩
  | case3 => exact ⟨_, _, rfl⟩
  | case4 position calls hInside bytes s hWindow hSome hNone ih => exact ih
  | case5 => exact ⟨_, _, rfl⟩

theorem exists_tailStart (hSupplies : source.Supplies content) {i : Nat}
    (hFirst : fileLength - searchWindow ≤ i) (hLast : i < fileLength - slack)
    (hFeed : content[i]? = some lineFeed) (calls : Nat) :
    ∃ tail calls', tailStart source fileLength calls = .ok tail calls' := by
  obtain ⟨calls', hShown⟩ := exists_window hSupplies (fileLength - searchWindow)
    (fileLength - slack - (fileLength - searchWindow)) calls
  simp only [tailStart, hShown]
  generalize hBytes : content.extract (fileLength - searchWindow)
    (fileLength - searchWindow + (fileLength - slack - (fileLength - searchWindow))) = bytes
  have hIndex : i < content.size := (Array.getElem?_eq_some_iff.mp hFeed).1
  have hSize : i - (fileLength - searchWindow) < bytes.size := by
    rw [← hBytes, Array.size_extract]
    omega
  have hThere : bytes.toList[i - (fileLength - searchWindow)]? = some lineFeed := by
    rw [Array.getElem?_toList, ← hBytes, Array.getElem?_extract, if_pos (by omega),
      Nat.add_sub_of_le hFirst, hFeed]
  cases hFound : Bytes.lastLineFeed? bytes bytes.size with
  | none => exact absurd hThere (Bytes.lastLineFeed?_eq_none hFound _ hSize)
  | some j => exact ⟨_, _, rfl⟩

theorem exists_align (hSupplies : source.Supplies content) (fileLength tail : Nat)
    (ranges : List Segment) (previous calls : Nat) :
    ∃ segments calls', align source fileLength tail previous ranges calls =
      .ok segments calls' := by
  induction ranges generalizing previous calls with
  | nil => exact ⟨_, _, rfl⟩
  | cons raw rest ih =>
      obtain ⟨found, between, hFound⟩ := exists_lineFeedFrom? hSupplies fileLength raw.stop calls
      by_cases hMore : previous < stopFor tail found
      · obtain ⟨more, calls', hRest⟩ := ih (stopFor tail found) between
        exact ⟨_, calls',
          align_cons_ok_iff.mpr ⟨found, between, hFound, Or.inl ⟨hMore, more, hRest, rfl⟩⟩⟩
      · obtain ⟨segments, calls', hRest⟩ := ih previous between
        exact ⟨segments, calls',
          align_cons_ok_iff.mpr ⟨found, between, hFound, Or.inr ⟨hMore, hRest⟩⟩⟩

/-- A file is divided if it is short or a line feed stands among the bytes searched near its end,
however often its reads are interrupted. -/
theorem exists_ofSource (hSupplies : source.Supplies content) (fileLength threads calls : Nat)
    (hFeed : splitThreshold ≤ fileLength →
      ∃ i, fileLength - searchWindow ≤ i ∧ i < fileLength - slack ∧ content[i]? = some lineFeed) :
    ∃ s calls', ofSource source fileLength threads calls = .ok s calls' := by
  simp only [ofSource]
  by_cases hShort : fileLength < splitThreshold
  · rw [if_pos ((raw_isEmpty_iff fileLength threads).mpr hShort)]
    exact ⟨_, _, rfl⟩
  · rw [if_neg (mt (raw_isEmpty_iff fileLength threads).mp hShort)]
    obtain ⟨i, hFirst, hLast, hAt⟩ := hFeed (Nat.not_lt.mp hShort)
    obtain ⟨tail, s, hTail⟩ := exists_tailStart hSupplies hFirst hLast hAt calls
    obtain ⟨segments, s', hAligned⟩ :=
      exists_align hSupplies fileLength tail (Segment.raw fileLength threads).dropLast 0 s
    simp only [hTail, hAligned]
    exact ⟨_, _, rfl⟩

/-! ### What a division is -/

/-- A division into segments that end behind line feeds, and a short tail that is not too short. -/
structure Splits (s : Segmentation) (content : Bytes) (fileLength : Nat) : Prop where
  tiles : Tiles 0 s.segments s.tail.offset
  aligned : ∀ segment ∈ s.segments, content[segment.stop - 1]? = some lineFeed
  tail_stop : s.tail.stop = fileLength
  slack_le : slack ≤ s.tail.length
  length_lt : s.tail.length < splitThreshold

/-- A file is all tail if it is short, and else divided along its ranges up to
where the tail starts. -/
theorem ofSource_ok_cases {threads calls calls' : Nat} {s : Segmentation}
    (hDivided : ofSource source fileLength threads calls = .ok s calls') :
    fileLength < splitThreshold ∧
        s = { segments := [], tail := { offset := 0, length := fileLength }, fileLength } ∨
      splitThreshold ≤ fileLength ∧ ∃ tail between segments,
        tailStart source fileLength calls = .ok tail between ∧
        align source fileLength tail 0 (Segment.raw fileLength threads).dropLast between =
          .ok segments calls' ∧
        s = { segments, tail := { offset := tail, length := fileLength - tail }, fileLength } := by
  simp only [ofSource] at hDivided
  by_cases hShort : fileLength < splitThreshold
  · rw [if_pos ((raw_isEmpty_iff fileLength threads).mpr hShort)] at hDivided
    cases hDivided
    exact Or.inl ⟨hShort, rfl⟩
  · rw [if_neg (mt (raw_isEmpty_iff fileLength threads).mp hShort)] at hDivided
    cases hTail : tailStart source fileLength calls with
    | error error s => simp [hTail] at hDivided
    | ok tail between =>
        simp only [hTail] at hDivided
        cases hAligned :
          align source fileLength tail 0 (Segment.raw fileLength threads).dropLast between with
        | error error s => simp [hAligned] at hDivided
        | ok segments s =>
            simp only [hAligned] at hDivided
            cases hDivided
            exact Or.inr ⟨Nat.not_lt.mp hShort, tail, between, segments, rfl, hAligned, rfl⟩

/-- All that a division can be. -/
theorem ofSource_cases (hDelivers : source.Delivers content) {threads calls calls' : Nat}
    {s : Segmentation} (hDivided : ofSource source fileLength threads calls = .ok s calls') :
    fileLength < splitThreshold ∧
        s = { segments := [], tail := { offset := 0, length := fileLength }, fileLength } ∨
      splitThreshold ≤ fileLength ∧ s.Splits content fileLength := by
  rcases ofSource_ok_cases hDivided with
    hShort | ⟨hLong, tail, between, segments, hTail, hAligned, rfl⟩
  · exact Or.inl hShort
  · obtain ⟨hAfter, hBefore, hFeed⟩ := tailStart_eq hDelivers hTail
    obtain ⟨hTiles, hFeeds⟩ := align_ok hDelivers hFeed _ (Nat.zero_le tail) hAligned
    refine Or.inr ⟨hLong, hTiles, hFeeds, ?_, ?_, ?_⟩ <;>
      simp only [splitThreshold, searchWindow, slack, cacheLine,
        Segment.stop] at hLong hAfter hBefore ⊢ <;>
      omega

/-- Segments up to the tail and a tail up to the end of the file hold every position of it once. -/
theorem once_of_tiles {s : Segmentation} (hTiles : Tiles 0 s.segments s.tail.offset)
    (hStop : s.tail.stop = fileLength) {position : Nat} (hPosition : position < fileLength) :
    (s.segments ++ [s.tail]).countP (Segment.covers · position) = 1 := by
  have hCovers : s.tail.covers position = true ↔ s.tail.offset ≤ position := by
    rw [Segment.covers_iff, hStop]
    omega
  rw [List.countP_append, hTiles.countP_eq, List.countP_singleton]
  by_cases hBehind : s.tail.offset ≤ position
  · rw [if_neg (by omega), if_pos (hCovers.mpr hBehind)]
  · rw [if_pos (by omega), if_neg (mt hCovers.mp hBehind)]

/-- Whatever the source delivers and wherever it fails, a division that is
returned is a sound one. -/
theorem ofSource_divides (hDelivers : source.Delivers content) (fileLength threads : Nat)
    {calls calls' : Nat} {s : Segmentation}
    (hDivided : ofSource source fileLength threads calls = .ok s calls') :
    s.Divides content fileLength := by
  rcases ofSource_cases hDelivers hDivided with ⟨hShort, rfl⟩ | ⟨hLong, hSplits⟩
  · exact
      { tiles := rfl
        tail_stop := Nat.zero_add fileLength
        once := fun position hPosition =>
          once_of_tiles (s := { segments := [], tail := ⟨0, fileLength⟩, fileLength }) rfl
            (Nat.zero_add fileLength) hPosition
        aligned := by simp
        segments_eq_nil := fun _ => rfl
        segments_ne_nil := fun hLong => absurd hShort (Nat.not_lt.mpr hLong)
        spare := fun _ => by simp
        tail_length := fun hLong => absurd hShort (Nat.not_lt.mpr hLong) }
  · have hTail : s.tail.offset + s.tail.length = fileLength := hSplits.tail_stop
    have hSlack := hSplits.slack_le
    have hLength := hSplits.length_lt
    exact
      { tiles := hSplits.tiles
        tail_stop := hSplits.tail_stop
        once := fun position hPosition => once_of_tiles hSplits.tiles hSplits.tail_stop hPosition
        aligned := hSplits.aligned
        segments_eq_nil := fun hLess => absurd hLess (Nat.not_lt.mpr hLong)
        segments_ne_nil := by
          intro _ hNone
          have hTiles := hSplits.tiles
          rw [hNone, Tiles] at hTiles
          omega
        spare := by
          intro _ segment hSegment
          have hStop := hSplits.tiles.stop_le hSegment
          omega
        tail_length := fun _ => ⟨hSlack, hLength⟩ }

/-- Three hundred bytes of thirty rows, delivered a hundred bytes at a time at most. -/
theorem ofSource_divides_thirty_rows :
    ∃ s calls, ofSource ((Schedule.mk (some 100) []).source
        (List.replicate 30 [110, 97, 109, 101, 59, 49, 50, 46, 51, 10]).flatten.toArray) 300 4 0 =
          .ok s calls ∧
      s.Divides
        (List.replicate 30 [110, 97, 109, 101, 59, 49, 50, 46, 51, 10]).flatten.toArray 300 := by
  have hServes := Source.serves_schedule (show 0 < 100 by decide)
    (List.replicate 30 [110, 97, 109, 101, 59, 49, 50, 46, 51, 10]).flatten.toArray
  obtain ⟨s, calls, hDivided⟩ := exists_ofSource hServes.supplies 300 4 0 fun _ =>
    ⟨49, by decide, by decide, by decide +kernel⟩
  exact ⟨s, calls, hDivided, ofSource_divides hServes.toDelivers 300 4 hDivided⟩

end Segmentation

end StationStats
