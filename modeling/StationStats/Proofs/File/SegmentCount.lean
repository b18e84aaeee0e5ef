import StationStats.Proofs.File.Boundaries

/-!
How many segments a file is divided into. Lines are short compared with ranges: each range of a file
of such lines ends a segment, and the search near the end of the file finds a line feed.
-/

namespace StationStats

namespace Segmentation

variable {source : Source} {content : Bytes} {fileLength threads calls calls' : Nat}
  {s : Segmentation}

/-- Each range ends one segment at most, and one more goes up to the tail. -/
theorem length_align_le {tail previous : Nat} {ranges segments : List Segment}
    (hAligned : align source fileLength tail previous ranges calls = .ok segments calls') :
    segments.length ≤ ranges.length + 1 := by
  induction ranges generalizing previous calls segments with
  | nil =>
      simp only [align] at hAligned
      cases hAligned
      split
      · exact Nat.le_refl 1
      · exact Nat.zero_le 1
  | cons range rest ih =>
      obtain ⟨found, between, -, hCases⟩ := align_cons_ok_iff.mp hAligned
      rcases hCases with ⟨-, more, hMore, rfl⟩ | ⟨-, hRest⟩
      · exact Nat.succ_le_succ (ih hMore)
      · exact (ih hRest).trans (Nat.le_succ _)

/-- Where lines are short a segment ends soon behind its range. -/
theorem stopFor_of_linesWithin {longest position tail : Nat} {found : Option Nat}
    (hLines : content.LinesWithin longest) (hFound : content.FirstFrom position found)
    (hBefore : position + longest < tail) (hTail : tail ≤ content.size) :
    position < stopFor tail found ∧ stopFor tail found ≤ position + longest := by
  obtain ⟨i, hFirst, hNear, hFeed⟩ := hLines.exists_lineFeed (hBefore.trans_le hTail)
  cases found with
  | none => exact absurd hFeed (hFound i hFirst)
  | some j =>
      obtain ⟨hj, -, hNone⟩ := hFound
      have hOrder : j ≤ i := by
        by_contra hBehind
        exact hNone i hFirst (Nat.not_le.mp hBehind) hFeed
      simp only [stopFor, Option.elim]
      omega

/-- If no line is longer than what lies between the ends of ranges, each range ends a segment. -/
theorem length_align_eq (hSupplies : source.Supplies content) {longest tail previous : Nat}
    (hLines : content.LinesWithin longest) (hTail : tail ≤ content.size)
    {ranges segments : List Segment}
    (hSpaced : (ranges.map Segment.stop).Pairwise fun stop later => stop + longest ≤ later)
    (hBefore : ∀ range ∈ ranges, range.stop + longest < tail) (hPrevious : ∀ range ∈ ranges,
      previous ≤ range.stop)
    (hMore : previous < tail)
    (hAligned : align source content.size tail previous ranges calls = .ok segments calls') :
    segments.length = ranges.length + 1 := by
  induction ranges generalizing previous calls segments with
  | nil =>
      simp only [align, if_pos hMore] at hAligned
      cases hAligned
      rfl
  | cons range rest ih =>
      rw [List.map_cons, List.pairwise_cons] at hSpaced
      rw [List.forall_mem_cons] at hBefore hPrevious
      obtain ⟨found, between, hSearched, hCases⟩ := align_cons_ok_iff.mp hAligned
      have hFound := lineFeedFrom?_ok hSupplies hSearched
      obtain ⟨hBehind, hSoon⟩ := stopFor_of_linesWithin hLines hFound hBefore.1 hTail
      rcases hCases with ⟨-, more, hRest, rfl⟩ | ⟨hPassed, -⟩
      · have hLater : ∀ other ∈ rest, stopFor tail found ≤ other.stop := fun other hOther =>
          hSoon.trans (hSpaced.1 _ (List.mem_map_of_mem hOther))
        rw [List.length_cons, List.length_cons]
        exact congrArg Nat.succ (ih hSpaced.2 hBefore.2 hLater (hSoon.trans_lt hBefore.1) hRest)
      · exact absurd (hPrevious.1.trans_lt hBehind) hPassed

/-- There are no more segments than ranges. -/
theorem length_segments_le (hDivided : ofSource source fileLength threads calls = .ok s calls') :
    s.segments.length ≤ (Segment.raw fileLength threads).length := by
  rcases ofSource_ok_cases hDivided with
    ⟨-, rfl⟩ | ⟨hLong, tail, between, segments, -, hAligned, rfl⟩
  · exact Nat.zero_le _
  · rw [← Segment.length_dropLast_raw hLong]
    exact length_align_le hAligned

/-- With short lines there are as many segments as ranges. -/
theorem length_segments_eq (hSupplies : source.Supplies content)
    (hLines : content.LinesWithin (searchWindow - slack))
    (hDivided : ofSource source content.size threads calls = .ok s calls') :
    s.segments.length = (Segment.raw content.size threads).length := by
  rcases ofSource_ok_cases hDivided with
    ⟨hShort, rfl⟩ | ⟨hLong, tail, between, segments, hTail, hAligned, rfl⟩
  · rw [List.isEmpty_iff.mp ((raw_isEmpty_iff content.size threads).mpr hShort)]
  · obtain ⟨hStart, hEnd, -⟩ := tailStart_eq hSupplies.toDelivers hTail
    have hSpaced := Segment.pairwise_stop_raw hLong threads
    have hInside (range : Segment) (hRange : range ∈ (Segment.raw content.size threads).dropLast) :=
      Segment.stop_add_leastSegment_le hLong hRange
    rw [← Segment.length_dropLast_raw hLong]
    simp only [splitThreshold, searchWindow, slack, cacheLine,
      leastSegment] at hLong hStart hEnd hLines hSpaced hInside
    apply length_align_eq hSupplies hLines (by omega) _ _ (fun _ _ => Nat.zero_le _) (by omega)
      hAligned
    · apply hSpaced.imp
      intro stop later hApart
      omega
    · intro range hRange
      have hBehind := hInside range hRange
      omega

/-- Short lines end everywhere, so that also the search near the end of a file finds a line feed. -/
theorem exists_lineFeed_near_end (hLines : content.LinesWithin (searchWindow - slack))
    (hLong : splitThreshold ≤ content.size) :
    ∃ i, content.size - searchWindow ≤ i ∧ i < content.size - slack ∧
      content[i]? = some lineFeed := by
  have hInside : content.size - searchWindow + (searchWindow - slack) < content.size := by
    simp only [splitThreshold, searchWindow, slack, cacheLine] at hLong ⊢
    omega
  obtain ⟨i, hFirst, hEnd, hFeed⟩ := hLines.exists_lineFeed hInside
  refine ⟨i, hFirst, ?_, hFeed⟩
  simp only [splitThreshold, searchWindow, slack, cacheLine] at hLong hEnd ⊢
  omega

/-- A file of short lines is divided, into as many segments as there are ranges. -/
theorem exists_ofSource_of_linesWithin (hSupplies : source.Supplies content)
    (hLines : content.LinesWithin (searchWindow - slack)) (threads calls : Nat) :
    ∃ s calls', ofSource source content.size threads calls = .ok s calls' ∧
      s.segments.length = (Segment.raw content.size threads).length := by
  obtain ⟨s, calls', hDivided⟩ := exists_ofSource hSupplies content.size threads calls
    (exists_lineFeed_near_end hLines)
  exact ⟨s, calls', hDivided, length_segments_eq hSupplies hLines hDivided⟩

end Segmentation

end StationStats
