import Mathlib.Data.List.Sort
import StationStats.Proofs.File.Ranges

/-!
Where the segments of a file end. As long as every read is repeated until it delivers
something, only the line feeds of the file decide this: the tail starts behind the last line
feed that leaves enough bytes behind it, and each range of the file moves its end to the next
line feed, but not into the tail.
-/

namespace StationStats

namespace Bytes

variable {content : Bytes}

/-- What there is to be found of line feeds from a position on: where the first one stands, or
none. -/
def FirstFrom (content : Bytes) (position : Nat) : Option Nat → Prop
  | some i => position ≤ i ∧ content[i]? = some lineFeed ∧
      ∀ j, position ≤ j → j < i → content[j]? ≠ some lineFeed
  | none => ∀ j, position ≤ j → content[j]? ≠ some lineFeed

/-- A search can go on behind bytes that have no line feed. -/
theorem FirstFrom.of_later {position next : Nat} {found : Option Nat}
    (h : content.FirstFrom next found) (hNext : position ≤ next)
    (hNone : ∀ j, position ≤ j → j < next → content[j]? ≠ some lineFeed) :
    content.FirstFrom position found := by
  cases found with
  | none =>
      intro j hj
      rcases Nat.lt_or_ge j next with hBefore | hBehind
      · exact hNone j hj hBefore
      · exact h j hBehind
  | some i =>
      obtain ⟨hFirst, hAt, hBefore⟩ := h
      refine ⟨hNext.trans hFirst, hAt, fun j hj hji => ?_⟩
      rcases Nat.lt_or_ge j next with hSkipped | hSearched
      · exact hNone j hj hSkipped
      · exact hBefore j hSearched hji

theorem FirstFrom.unique {position : Nat} {found other : Option Nat}
    (h : content.FirstFrom position found) (hOther : content.FirstFrom position other) :
    found = other := by
  cases found with
  | none =>
      cases other with
      | none => rfl
      | some j => exact absurd hOther.2.1 (h j hOther.1)
  | some i =>
      cases other with
      | none => exact absurd h.2.1 (hOther i h.1)
      | some j =>
          rcases Nat.lt_trichotomy i j with hLess | rfl | hMore
          · exact absurd h.2.1 (hOther.2.2 i h.1 hLess)
          · rfl
          · exact absurd hOther.2.1 (h.2.2 j hOther.1 hMore)

/-- No line is longer than this, its line feed counted, and neither is what stands
behind the last line feed. -/
structure LinesWithin (content : Bytes) (longest : Nat) : Prop where
  line_le : ∀ line ∈ lines content.toList, line.length + 1 ≤ longest
  rest_le : content.size - content.wholeRows content.size ≤ longest

theorem LinesWithin.mono {longest longer : Nat} (h : content.LinesWithin longest)
    (hLonger : longest ≤ longer) :
    content.LinesWithin longer where
  line_le line hLine := (h.line_le line hLine).trans hLonger
  rest_le := h.rest_le.trans hLonger

/-- The whole rows end before bytes that have no line feed. -/
theorem wholeRows_le_of_none {first n : Nat}
    (hNone : ∀ i, first ≤ i → i < n → content[i]? ≠ some lineFeed) :
    content.wholeRows n ≤ first := by
  rw [wholeRows]
  cases hLast : content.lastLineFeed? n with
  | none => exact Nat.zero_le first
  | some i =>
      obtain ⟨hIndex, hAt, -⟩ := lastLineFeed?_eq_some hLast
      rw [Array.getElem?_toList] at hAt
      by_contra hBehind
      exact hNone i (Nat.not_lt.mp hBehind) hIndex hAt

/-- As many bytes as the longest line has hold a line feed, unless they are the last of all. -/
theorem LinesWithin.exists_lineFeed {longest first : Nat} (h : content.LinesWithin longest)
    (hInside : first + longest < content.size) :
    ∃ i, first ≤ i ∧ i < first + longest ∧ content[i]? = some lineFeed := by
  by_contra hNot
  have hNone : ∀ i, first ≤ i → i < first + longest → content[i]? ≠ some lineFeed :=
    fun i hi hEnd hFeed => hNot ⟨i, hi, hEnd, hFeed⟩
  -- The line that these bytes belong to starts in front of them.
  have hStart : content.wholeRows (first + longest) ≤ first := wholeRows_le_of_none hNone
  have hWhole := terminated_take_wholeRows content (first + longest)
  have hPart := lineFeed_not_mem_drop_wholeRows content (first + longest)
  generalize content.wholeRows (first + longest) = start at hStart hWhole hPart
  have hPrefix : (content.toList.take (first + longest)).drop start <+:
      content.toList.drop start := by
    rw [List.drop_take]
    exact List.take_prefix _ _
  have hLength : ((content.toList.take (first + longest)).drop start).length =
      first + longest - start := by
    rw [List.length_drop, List.length_take, Array.length_toList, Nat.min_eq_left hInside.le]
  by_cases hFeed : lineFeed ∈ content.toList.drop start
  · obtain ⟨line, rest, hText, hLine⟩ := exists_line hFeed
    have hAll : line ∈ lines content.toList := by
      rw [← List.take_append_drop start content.toList, lines_append hWhole, hText,
        lines_cons_line hLine]
      exact List.mem_append_right _ List.mem_cons_self
    rw [hText] at hPrefix
    have hLonger := (prefix_of_prefix_append hPart hPrefix).length_le
    have hShort := h.line_le line hAll
    omega
  · have hRest : content.wholeRows content.size ≤ start := by
      apply wholeRows_le_of_none
      intro i hi _ hAt
      apply hFeed
      apply List.mem_of_getElem? (i := i - start)
      rw [List.getElem?_drop, Nat.add_sub_of_le hi, Array.getElem?_toList, hAt]
    have hShort := h.rest_le
    omega

end Bytes

namespace Segmentation

variable {source : Source} {content : Bytes}

/-- The later a search for a line feed starts, the later the segment ends. -/
theorem stopFor_mono {tail position later : Nat} {found foundLater : Option Nat}
    (h : content.FirstFrom position found) (hFoundLater : content.FirstFrom later foundLater)
    (hLater : position ≤ later) : stopFor tail found ≤ stopFor tail foundLater := by
  cases foundLater with
  | none => exact stopFor_le tail found
  | some j =>
      obtain ⟨hj, hAt, -⟩ := hFoundLater
      cases found with
      | none => exact absurd hAt (h j (hLater.trans hj))
      | some i =>
          have hOrder : i ≤ j := by
            by_contra hBefore
            exact h.2.2 j (hLater.trans hj) (Nat.not_le.mp hBefore) hAt
          simp only [stopFor, Option.elim]
          omega

/-! ### What is found -/

/-- A window shows each byte of the content that it reaches. -/
theorem getElem?_eq_window {position j : Nat} {bytes : Bytes}
    (hBytes : bytes = content.extract position (position + bytes.size)) (hj : position ≤ j)
    (hEnd : j < position + bytes.size) : content[j]? = bytes[j - position]? := by
  rw [getElem?_window hBytes (by omega), Nat.add_sub_of_le hj]

theorem firstFrom_of_window {position i : Nat} {bytes : Bytes}
    (hBytes : bytes = content.extract position (position + bytes.size))
    (hFirst : bytes.firstLineFeed? = some i) :
    content.FirstFrom position (some (position + i)) := by
  rw [Bytes.firstLineFeed?, Array.findIdx?_eq_some_iff_getElem] at hFirst
  obtain ⟨hIndex, hMatch, hBefore⟩ := hFirst
  refine ⟨Nat.le_add_right _ _, ?_, fun j hj hji hFeed => ?_⟩
  · rw [← getElem?_window hBytes hIndex, Array.getElem?_eq_getElem hIndex, beq_iff_eq.mp hMatch]
  · have hInside : j - position < bytes.size := by omega
    rw [getElem?_eq_window hBytes hj (by omega), Array.getElem?_eq_getElem hInside,
      Option.some_inj] at hFeed
    exact hBefore (j - position) (by omega) (beq_iff_eq.mpr hFeed)

theorem no_lineFeed_of_window {position : Nat} {bytes : Bytes}
    (hBytes : bytes = content.extract position (position + bytes.size))
    (hNone : bytes.firstLineFeed? = none) :
    ∀ j, position ≤ j → j < position + bytes.size → content[j]? ≠ some lineFeed := by
  intro j hj hEnd hFeed
  rw [getElem?_eq_window hBytes hj hEnd] at hFeed
  rw [Bytes.firstLineFeed?, Array.findIdx?_eq_none_iff] at hNone
  have hOther := hNone _ (Array.mem_of_getElem? hFeed)
  cases hOther

/-- Windows that follow one another miss no line feed. -/
theorem lineFeedFrom?_ok (hSupplies : source.Supplies content) {position calls calls' : Nat}
    {found : Option Nat}
    (hFound : lineFeedFrom? source content.size position calls = .ok found calls') :
    content.FirstFrom position found := by
  fun_induction lineFeedFrom? source content.size position calls with
  | case1 => cases hFound
  | case2 position calls hInside bytes s hWindow hEmpty =>
      -- Inside the content a window is never empty.
      obtain ⟨_, hShown⟩ := exists_window hSupplies position searchWindow calls
      cases hWindow.symm.trans hShown
      rw [Array.size_extract, searchWindow] at hEmpty
      omega
  | case3 position calls hInside bytes s hWindow hSome i hFirst =>
      cases hFound
      exact firstFrom_of_window (window_ok hSupplies.toDelivers hWindow).1 hFirst
  | case4 position calls hInside bytes s hWindow hSome hNone ih =>
      apply (ih hFound).of_later (Nat.le_add_right _ _)
      exact no_lineFeed_of_window (window_ok hSupplies.toDelivers hWindow).1 hNone
  | case5 position calls hBehind =>
      cases hFound
      intro j hj
      rw [Array.getElem?_eq_none (by omega)]
      exact (Option.some_ne_none lineFeed).symm

/-- Either the tail starts behind the last line feed among the searched bytes, or there is no line
feed among them and this is the error. -/
theorem tailStart_cases (hSupplies : source.Supplies content) (fileLength calls : Nat) :
    (∃ tail calls', tailStart source fileLength calls = .ok tail calls' ∧
      ∀ j, tail ≤ j → j < fileLength - slack → content[j]? ≠ some lineFeed) ∨
    ∃ calls', tailStart source fileLength calls =
        .error (noLineFeed (fileLength - searchWindow) (fileLength - slack)) calls' ∧
      ∀ j, fileLength - searchWindow ≤ j → j < fileLength - slack →
        content[j]? ≠ some lineFeed := by
  obtain ⟨calls', hShown⟩ := exists_window hSupplies (fileLength - searchWindow)
    (fileLength - slack - (fileLength - searchWindow)) calls
  -- A line feed of the content among the searched bytes is one of the window.
  have hSearched {j : Nat} (hj : fileLength - searchWindow ≤ j) (hEnd : j < fileLength - slack)
      (hFeed : content[j]? = some lineFeed) :
      ∃ k, k + (fileLength - searchWindow) = j ∧
        (content.extract (fileLength - searchWindow)
          (fileLength - searchWindow +
            (fileLength - slack - (fileLength - searchWindow)))).toList[k]? = some lineFeed := by
    have hIndex := (Array.getElem?_eq_some_iff.mp hFeed).1
    refine ⟨j - (fileLength - searchWindow), Nat.sub_add_cancel hj, ?_⟩
    rw [Array.getElem?_toList, Array.getElem?_extract, if_pos (by omega),
      Nat.add_sub_of_le hj, hFeed]
  simp only [tailStart, hShown]
  generalize content.extract (fileLength - searchWindow)
    (fileLength - searchWindow + (fileLength - slack - (fileLength - searchWindow))) =
      bytes at hSearched ⊢
  cases hLast : Bytes.lastLineFeed? bytes bytes.size with
  | none =>
      refine Or.inr ⟨calls', rfl, fun j hj hEnd hFeed => ?_⟩
      obtain ⟨k, -, hAt⟩ := hSearched hj hEnd hFeed
      have hIndex := (List.getElem?_eq_some_iff.mp hAt).1
      exact Bytes.lastLineFeed?_eq_none hLast k hIndex hAt
  | some i =>
      refine Or.inl ⟨_, calls', rfl, fun j hj hEnd hFeed => ?_⟩
      obtain ⟨k, hPlace, hAt⟩ := hSearched (by omega) hEnd hFeed
      have hIndex := (List.getElem?_eq_some_iff.mp hAt).1
      exact (Bytes.lastLineFeed?_eq_some hLast).2.2 k (by omega) hIndex hAt

/-! ### Where segments end -/

/-- A segment ends here for one of these ranges, or with the tail that follows all of them. -/
def IsStop (content : Bytes) (tail : Nat) (ranges : List Segment) (stop : Nat) : Prop :=
  stop = tail ∨ ∃ range ∈ ranges, ∃ found, content.FirstFrom range.stop found ∧
    stop = stopFor tail found

theorem isStop_nil {tail stop : Nat} : IsStop content tail [] stop ↔ stop = tail := by simp [IsStop]

theorem isStop_cons {tail stop : Nat} {range : Segment} {rest : List Segment} {found : Option Nat}
    (hFound : content.FirstFrom range.stop found) :
    IsStop content tail (range :: rest) stop ↔
      stop = stopFor tail found ∨ IsStop content tail rest stop := by
  constructor
  · rintro (hTail | ⟨other, hOther, again, hAgain, hStop⟩)
    · exact Or.inr (Or.inl hTail)
    · rcases List.mem_cons.mp hOther with rfl | hRest
      · exact Or.inl (hAgain.unique hFound ▸ hStop)
      · exact Or.inr (Or.inr ⟨other, hRest, again, hAgain, hStop⟩)
  · rintro (hStop | hTail | ⟨other, hOther, hRest⟩)
    · exact Or.inr ⟨range, List.mem_cons_self, found, hFound, hStop⟩
    · exact Or.inl hTail
    · exact Or.inr ⟨other, List.mem_cons_of_mem range hOther, hRest⟩

/-- No segment ends before the end that a range leads to which comes before all others. -/
theorem IsStop.stopFor_le {tail stop position : Nat} {ranges : List Segment} {found : Option Nat}
    (h : IsStop content tail ranges stop) (hFound : content.FirstFrom position found)
    (hBefore : ∀ range ∈ ranges, position ≤ range.stop) : stopFor tail found ≤ stop := by
  rcases h with rfl | ⟨range, hRange, later, hLater, rfl⟩
  · exact Segmentation.stopFor_le stop found
  · exact stopFor_mono hFound hLater (hBefore range hRange)

/-- No segment ends at the start of the file. -/
theorem IsStop.pos {tail stop : Nat} {ranges : List Segment} (h : IsStop content tail ranges stop)
    (hTail : 0 < tail) : 0 < stop := by
  rcases h with rfl | ⟨range, -, found, -, rfl⟩
  · exact hTail
  · cases found with
    | none => exact hTail
    | some i =>
        simp only [stopFor, Option.elim]
        omega

/-- The segments end where their ranges say, and each end stands once however
many ranges lead to it. -/
theorem mem_stops_of_align (hSupplies : source.Supplies content) {tail : Nat}
    {ranges : List Segment} (hRanges : (ranges.map Segment.stop).Pairwise (· < ·))
    {previous calls calls' : Nat} {segments : List Segment}
    (hAligned : align source content.size tail previous ranges calls = .ok segments calls')
    (stop : Nat) :
    stop ∈ segments.map Segment.stop ↔ previous < stop ∧ IsStop content tail ranges stop := by
  induction ranges generalizing previous calls segments with
  | nil =>
      rw [isStop_nil]
      by_cases hMore : previous < tail
      · have hStop : previous + (tail - previous) = tail := Nat.add_sub_of_le hMore.le
        simp only [align, if_pos hMore] at hAligned
        cases hAligned
        rw [List.map_singleton, List.mem_singleton, Segment.stop, hStop]
        exact ⟨fun hSame => ⟨hSame ▸ hMore, hSame⟩, And.right⟩
      · simp only [align, if_neg hMore] at hAligned
        cases hAligned
        constructor
        · intro hNone
          cases hNone
        · rintro ⟨hLess, rfl⟩
          exact absurd hLess hMore
  | cons range rest ih =>
      rw [List.map_cons, List.pairwise_cons] at hRanges
      obtain ⟨hFirst, hRest⟩ := hRanges
      obtain ⟨found, between, hSearched, hCases⟩ := align_cons_ok_iff.mp hAligned
      have hFound := lineFeedFrom?_ok hSupplies hSearched
      rw [isStop_cons hFound]
      rcases hCases with ⟨hMore, more, hMoreAligned, rfl⟩ | ⟨hPassed, hRestAligned⟩
      · -- The segment ends for this range, and the others do not end before it.
        have hStop : previous + (stopFor tail found - previous) = stopFor tail found :=
          Nat.add_sub_of_le hMore.le
        have hLater (h : IsStop content tail rest stop) : stopFor tail found ≤ stop :=
          h.stopFor_le hFound fun other hOther => (hFirst _ (List.mem_map_of_mem hOther)).le
        rw [List.map_cons, List.mem_cons, Segment.stop, hStop, ih hRest hMoreAligned]
        constructor
        · rintro (rfl | ⟨hLess, hIs⟩)
          · exact ⟨hMore, Or.inl rfl⟩
          · exact ⟨hMore.trans hLess, Or.inr hIs⟩
        · rintro ⟨-, hHere | hIs⟩
          · exact Or.inl hHere
          · rcases (hLater hIs).eq_or_lt with hSame | hLess
            · exact Or.inl hSame.symm
            · exact Or.inr ⟨hLess, hIs⟩
      · -- The range leads to no end behind that of the one before, so nothing is lost by
        -- passing over it.
        rw [ih hRest hRestAligned]
        constructor
        · rintro ⟨hLess, hIs⟩
          exact ⟨hLess, Or.inr hIs⟩
        · rintro ⟨hLess, hHere | hIs⟩
          · exact absurd (hHere ▸ hLess) hPassed
          · exact ⟨hLess, hIs⟩

/-! ### The division that the line feeds decide -/

/-- The division of a content for a number of threads, said without reads: the tail starts
behind the last line feed among the searched bytes, the segments follow one another up to
it, and they end for the ranges between which the content is divided, each end standing once
and in ascending order. -/
structure IsDivision (content : Bytes) (threads : Nat) (s : Segmentation) : Prop where
  fileLength_eq : s.fileLength = content.size
  lineFeed_before_tail : content[s.tail.offset - 1]? = some lineFeed
  lt_tail : content.size - searchWindow < s.tail.offset
  tail_le : s.tail.offset + slack ≤ content.size
  last : ∀ j, s.tail.offset ≤ j → j < content.size - slack → content[j]? ≠ some lineFeed
  tail_stop : s.tail.stop = content.size
  tiles : Tiles 0 s.segments s.tail.offset
  ascending : (s.segments.map Segment.stop).Pairwise (· < ·)
  stops : ∀ stop, stop ∈ s.segments.map Segment.stop ↔
    IsStop content s.tail.offset (Segment.raw content.size threads).dropLast stop

theorem IsDivision.tail_offset_le {threads : Nat} {s other : Segmentation}
    (h : IsDivision content threads s) (hOther : IsDivision content threads other) :
    other.tail.offset ≤ s.tail.offset := by
  by_contra hBehind
  have hTail := hOther.tail_le
  have hStart := hOther.lt_tail
  exact h.last (other.tail.offset - 1) (by omega) (by omega) hOther.lineFeed_before_tail

/-- There is no more than one such division. -/
theorem IsDivision.unique {threads : Nat} {s other : Segmentation}
    (h : IsDivision content threads s) (hOther : IsDivision content threads other) : s = other := by
  have hOffset : s.tail.offset = other.tail.offset :=
    Nat.le_antisymm (hOther.tail_offset_le h) (h.tail_offset_le hOther)
  have hStops : s.segments.map Segment.stop = other.segments.map Segment.stop := by
    apply h.ascending.eq_of_mem_iff hOther.ascending
    intro stop
    rw [h.stops, hOther.stops, hOffset]
  have hSegments := h.tiles.eq_of_stops hOther.tiles hStops
  have hLength := h.tail_stop.trans hOther.tail_stop.symm
  have hFile := h.fileLength_eq.trans hOther.fileLength_eq.symm
  obtain ⟨segments, ⟨offset, length⟩, fileLength⟩ := s
  obtain ⟨segments', ⟨offset', length'⟩, fileLength'⟩ := other
  simp only [Segment.stop, mk.injEq, Segment.mk.injEq] at hOffset hSegments hLength hFile ⊢
  exact ⟨hSegments, ⟨hOffset, by omega⟩, hFile⟩

theorem IsDivision.exists_lineFeed {threads : Nat} {s : Segmentation}
    (h : IsDivision content threads s) :
    ∃ i, content.size - searchWindow ≤ i ∧ i < content.size - slack ∧
      content[i]? = some lineFeed := by
  have hStart := h.lt_tail
  have hEnd := h.tail_le
  exact ⟨s.tail.offset - 1, by omega, by omega, h.lineFeed_before_tail⟩

/-- What an operation comes to, whatever state it leaves behind. -/
def outcome {ε σ α : Type} : EStateM.Result ε σ α → Except ε α
  | .ok a _ => .ok a
  | .error e _ => .error e

/-- A content that is not short is divided as its line feeds decide, or it has no line feed among
the bytes searched near its end and this is the error. -/
theorem outcome_cases (hSupplies : source.Supplies content) (hLong : splitThreshold ≤ content.size)
    (threads calls : Nat) :
    (∃ s, outcome (ofSource source content.size threads calls) = .ok s ∧
      IsDivision content threads s) ∨
    outcome (ofSource source content.size threads calls) =
        .error (noLineFeed (content.size - searchWindow) (content.size - slack)) ∧
      ∀ j, content.size - searchWindow ≤ j → j < content.size - slack →
        content[j]? ≠ some lineFeed := by
  have hSplit : ¬ (Segment.raw content.size threads).isEmpty = true :=
    mt (raw_isEmpty_iff content.size threads).mp (Nat.not_lt.mpr hLong)
  simp only [ofSource, if_neg hSplit]
  rcases tailStart_cases hSupplies content.size calls with
    ⟨tail, between, hTail, hLast⟩ | ⟨between, hTail, hNone⟩
  · obtain ⟨segments, calls', hAligned⟩ :=
      exists_align hSupplies content.size tail (Segment.raw content.size threads).dropLast 0 between
    obtain ⟨hStart, hEnd, hFeed⟩ := tailStart_eq hSupplies.toDelivers hTail
    obtain ⟨hTiles, -⟩ := align_ok hSupplies.toDelivers hFeed _ (Nat.zero_le tail) hAligned
    have hRanges :
        ((Segment.raw content.size threads).dropLast.map Segment.stop).Pairwise (· < ·) :=
      (Segment.tiles_raw hLong threads).pairwise_stop_lt.sublist ((List.dropLast_sublist _).map _)
    simp only [hTail, hAligned]
    simp only [splitThreshold, searchWindow, slack, cacheLine] at hLong hEnd
    refine Or.inl ⟨_, rfl, ?_⟩
    exact
      { fileLength_eq := rfl
        lineFeed_before_tail := hFeed
        lt_tail := hStart
        tail_le := by
          simp only [slack, cacheLine]
          omega
        last := hLast
        tail_stop := by
          simp only [Segment.stop]
          omega
        tiles := hTiles
        ascending := hTiles.pairwise_stop_lt
        stops := by
          intro stop
          rw [mem_stops_of_align hSupplies hRanges hAligned]
          constructor
          · exact And.right
          · intro hIs
            exact ⟨hIs.pos (Nat.zero_lt_of_lt hStart), hIs⟩ }
  · simp only [hTail]
    exact Or.inr ⟨rfl, hNone⟩

/-- However the reads of a content are cut short or interrupted, the division is an error of invalid
data if there is no line feed among the bytes searched near the end, and else it is the division
that the line feeds decide. With lines that are no longer than the searched bytes there is always
one. Another source that supplies the same content leads to the same outcome. -/
theorem ofSource_follows_lineFeeds (hSupplies : source.Supplies content)
    (hLong : splitThreshold ≤ content.size) (threads calls : Nat) :
    ((∃ error, outcome (ofSource source content.size threads calls) = .error error) ↔
      ∀ i, content.size - searchWindow ≤ i → i < content.size - slack →
        content[i]? ≠ some lineFeed) ∧
    (∀ error, outcome (ofSource source content.size threads calls) = .error error →
      error.kind = .invalidData) ∧
    (content.LinesWithin (searchWindow - slack) →
      ∃ s, outcome (ofSource source content.size threads calls) = .ok s) ∧
    (∀ s, outcome (ofSource source content.size threads calls) = .ok s →
      IsDivision content threads s) ∧
    ∀ other : Source, other.Supplies content → ∀ otherCalls,
      outcome (ofSource other content.size threads otherCalls) =
        outcome (ofSource source content.size threads calls) := by
  rcases outcome_cases hSupplies hLong threads calls with ⟨s, hDivided, hIs⟩ | ⟨hFailed, hNone⟩
  · obtain ⟨i, hFirst, hEnd, hFeed⟩ := hIs.exists_lineFeed
    refine ⟨⟨?_, fun hNone => absurd hFeed (hNone i hFirst hEnd)⟩, ?_, fun _ => ⟨s, hDivided⟩,
      ?_, ?_⟩
    · rintro ⟨error, hError⟩
      cases hDivided.symm.trans hError
    · intro error hError
      cases hDivided.symm.trans hError
    · intro other hOther
      cases hDivided.symm.trans hOther
      exact hIs
    · intro other hOther otherCalls
      rcases outcome_cases hOther hLong threads otherCalls with ⟨s', hDivided', hIs'⟩ | ⟨-, hNone⟩
      · rw [hDivided, hDivided', hIs.unique hIs']
      · exact absurd hFeed (hNone i hFirst hEnd)
  · refine ⟨⟨fun _ => hNone, fun _ => ⟨_, hFailed⟩⟩, ?_, ?_, ?_, ?_⟩
    · intro error hError
      cases hFailed.symm.trans hError
      rfl
    · intro hLines
      simp only [splitThreshold, searchWindow, slack, cacheLine] at hLong hLines hNone
      have hBehind : content.size - 256 + 192 < content.size := by omega
      obtain ⟨i, hFirst, hEnd, hFeed⟩ := hLines.exists_lineFeed hBehind
      exact absurd hFeed (hNone i hFirst (by omega))
    · intro s hDivided
      cases hFailed.symm.trans hDivided
    · intro other hOther otherCalls
      rcases outcome_cases hOther hLong threads otherCalls with ⟨s, -, hIs⟩ | ⟨hFailed', -⟩
      · obtain ⟨i, hFirst, hEnd, hFeed⟩ := hIs.exists_lineFeed
        exact absurd hFeed (hNone i hFirst hEnd)
      · rw [hFailed, hFailed']

/-- Lines of ten bytes for two threads, read a hundred bytes at a time at most and interrupted
twice: the first segment goes on to the end of the line that its range cuts. -/
theorem ofSource_follows_lines_of_ten_bytes :
    ∃ s, outcome (ofSource
        ((Schedule.mk (some 100) [(0, .failure .interrupted), (2, .failure .interrupted)]).source
          (Array.ofFn fun i : Fin 65410 => if i.val % 10 = 9 then lineFeed else 97)) 65410 2 0) =
            .ok s ∧
      s.segments.map Segment.stop = [32710, 65340] := by
  have hSize : (Array.ofFn fun i : Fin 65410 => if i.val % 10 = 9 then lineFeed else 97).size =
      65410 := Array.size_ofFn
  have hFeed (i : Nat) :
      (Array.ofFn fun i : Fin 65410 => if i.val % 10 = 9 then lineFeed else 97)[i]? =
        some lineFeed ↔ i < 65410 ∧ i % 10 = 9 := by
    rw [Array.getElem?_ofFn]
    by_cases hInside : i < 65410 <;> by_cases hEnd : i % 10 = 9 <;> simp [hInside, hEnd, lineFeed]
  generalize (Array.ofFn fun i : Fin 65410 => if i.val % 10 = 9 then lineFeed else 97) =
    content at hSize hFeed ⊢
  have hSupplies : ((Schedule.mk (some 100)
      [(0, .failure .interrupted), (2, .failure .interrupted)]).source content).Supplies content :=
    Source.supplies_schedule (by simp) (by simp) content
  have hLong : splitThreshold ≤ content.size := by
    rw [hSize]
    decide
  obtain ⟨hError, -, -, hDivision, -⟩ := ofSource_follows_lineFeeds hSupplies hLong 2 0
  rw [hSize] at hError hDivision
  cases hDivided : outcome (ofSource ((Schedule.mk (some 100)
      [(0, .failure .interrupted), (2, .failure .interrupted)]).source content) 65410 2 0) with
  | error error =>
      have hNone := hError.mp ⟨error, hDivided⟩
      exact absurd ((hFeed 65339).mpr (by decide)) (hNone 65339 (by decide) (by decide))
  | ok s =>
      refine ⟨s, rfl, ?_⟩
      have hIs := hDivision s hDivided
      have hTail : s.tail.offset = 65340 := by
        have hStart := hIs.lt_tail
        have hEnd := hIs.tail_le
        have hBefore := (hFeed _).mp hIs.lineFeed_before_tail
        rw [hSize] at hStart hEnd
        simp only [searchWindow, slack, cacheLine] at hStart hEnd
        have hLow : 65339 < s.tail.offset := by
          by_contra hBefore
          exact hIs.last 65339 (Nat.not_lt.mp hBefore) (by rw [hSize]; decide)
            ((hFeed _).mpr (by decide))
        omega
      have hFound : Bytes.FirstFrom content 32705 (some 32709) := by
        refine ⟨by decide, (hFeed _).mpr (by decide), fun j hj hEnd hAt => ?_⟩
        have := (hFeed j).mp hAt
        omega
      apply hIs.ascending.eq_of_mem_iff (by decide)
      intro stop
      rw [hIs.stops, hSize, hTail]
      have hRaw : (Segment.raw 65410 2).dropLast = [⟨0, 32705⟩] := by decide
      rw [hRaw, isStop_cons hFound, isStop_nil]
      simp [stopFor]

end Segmentation

end StationStats
