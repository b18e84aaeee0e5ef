import StationStats.Proofs.Row.Refusal
import StationStats.Proofs.Run.Summary

/-!
How many workers a run has. Each segment has a worker with a table of its own, so there are more
workers than threads exactly if a file is divided into more segments.
-/

namespace StationStats

namespace Summary

variable {hash : KeyHash} {content : Bytes} {threads : Nat}

/-- There is a table for each segment. -/
theorem length_segmentTables {access : SegmentAccess hash} {start : Table hash}
    {segments : List Segment} {tables : List (Table hash)}
    (hTables : segmentTables access start segments = .ok tables) :
    tables.length = segments.length := by
  induction segments generalizing tables with
  | nil =>
      cases hTables
      rfl
  | cons segment rest ih =>
      obtain ⟨t, more, -, hMore, rfl⟩ := segmentTables_cons_ok_iff.mp hTables
      exact congrArg Nat.succ (ih hMore)

/-- Ranges, segments and workers for a number of threads. There are no more ranges than threads
exactly if the file shares out, and never more than one further range for as many threads as the
least range has bytes, so none for up to `leastSegment` threads. There are no more segments than
ranges, as many if no line is longer than the bytes searched near the end, and each of them has its
table, which a worker of its own makes. -/
theorem workers_le_threads_iff (hash : KeyHash) (fileLength threads : Nat) :
    ((Segment.raw fileLength threads).length ≤ max threads 1 ↔
      Segment.SharesOut fileLength threads) ∧
    (Segment.raw fileLength threads).length ≤ max threads 1 + (max threads 1 - 1) / leastSegment ∧
    (∀ source calls s calls', Segmentation.ofSource source fileLength threads calls = .ok s calls' →
      s.segments.length ≤ (Segment.raw fileLength threads).length ∧
        ∀ (access : SegmentAccess hash) start tables,
          segmentTables access start s.segments = .ok tables →
            tables.length = s.segments.length) ∧
    ∀ (content : Bytes) source calls s calls', content.size = fileLength → source.Supplies content →
      content.LinesWithin (searchWindow - slack) →
        Segmentation.ofSource source fileLength threads calls = .ok s calls' →
          s.segments.length = (Segment.raw fileLength threads).length := by
  refine ⟨Segment.length_raw_le_iff fileLength threads, Segment.length_raw_le fileLength threads,
    ?_, ?_⟩
  · intro source calls s calls' hDivided
    exact ⟨Segmentation.length_segments_le hDivided,
      fun _ _ _ hTables => length_segmentTables hTables⟩
  · rintro content source calls s calls' rfl hSupplies hLines hDivided
    exact Segmentation.length_segments_eq hSupplies hLines hDivided

/-! ### A run with more workers than threads -/

/-- The stages of a summary that is returned. -/
theorem exists_tables_of_ofFile {path text : String}
    (hText : ofFile path (.ok content) threads .mapped = .ok text) :
    ∃ s calls tables,
      Segmentation.ofSource (Source.ofBytes content) content.size threads 0 = .ok s calls ∧
      segmentTables (viewed KeyHash.fnv1a content) (Table.ofSize Table.runSize) s.segments =
        .ok tables := by
  have hServes := Opening.serves_ofContent content
  rw [ofFile_ok, ofOpened_mapped hServes, Opening.handle_ofContent] at hText
  cases hDivided : Segmentation.ofSource (Source.ofBytes content) content.size threads 0 with
  | error cause calls => simp [hDivided] at hText
  | ok s calls =>
      simp only [hDivided] at hText
      obtain ⟨tables, -, -, hTables, -⟩ := ofSegmentation_ok_iff_stages.mp hText
      exact ⟨s, calls, tables, rfl, hTables⟩

/-- There are files of any number of rows of six bytes, all of one station. -/
theorem exists_rows_of_six_bytes (n : Nat) :
    ∃ (content : Bytes) (observations : List Observation), content.size = 6 * n ∧
      Reads content.completed.toList observations ∧ observations.length = n ∧
        ∀ o ∈ observations, o.name = [97] := by
  obtain ⟨hTerminated, hReads⟩ := reads_replicate isRow_one_byte n
  refine ⟨(List.replicate n (([97] ++ separator :: [49, point, 48]) ++ [lineFeed])).flatten.toArray,
    List.replicate n ⟨[97], 10⟩, ?_, ?_, List.length_replicate, ?_⟩
  · rw [List.size_toArray, List.length_flatten, List.map_replicate, List.sum_replicate_nat,
      Nat.mul_comm]
    rfl
  · rw [Bytes.completed_eq hTerminated]
    exact hReads
  · intro o ho
    rw [List.eq_of_mem_replicate ho]

/-- Rows of one station are summarised if there are not too many of them. -/
theorem exists_ofFile_of_one_name (path : String) {observations : List Observation}
    (hReads : Reads content.completed.toList observations) (hFew : observations.length < 2 ^ 31)
    (hNames : ∀ o ∈ observations, o.name = [97]) (threads : Nat) :
    ∃ text, ofFile path (.ok content) threads .mapped = .ok text := by
  have hLines : (lines content.completed.toList).length < 2 ^ 31 := by
    rwa [List.Forall₂.length_eq hReads]
  have hOnly : observations.map Observation.name ⊆ [[97]] := by
    intro name hName
    obtain ⟨o, ho, rfl⟩ := List.mem_map.mp hName
    exact List.mem_singleton.mpr (hNames o ho)
  have hStations : (observations.map Observation.name).dedup.length ≤ Table.runSize.slots.toNat :=
    (Table.length_dedup_le hOnly).trans (by decide)
  obtain ⟨text, hReport⟩ : ∃ text, Report.IsReport observations text := by
    rw [Report.exists_isReport_iff]
    intro name hName
    rw [List.mem_singleton.mp (hOnly hName)]
    exact String.isValidUTF8 "a"
  have hMapped : Strategy.mapped.Accepted := trivial
  exact ⟨text, (ofOpened_ok_iff (Opening.serves_ofContent content) path threads hMapped hLines).mpr
    ⟨observations, hReads, hStations, hReport⟩⟩

/-- A file of a little more than a gigabyte for 32705 threads: the shares of the threads leave one
more share over, and the run has a worker for it. -/
theorem more_workers_than_threads :
    max 32705 1 < (Segment.raw 1069617024 32705).length ∧
      ∃ content text s calls tables, content.size = 1069617024 ∧
        ofFile "m" (.ok content) 32705 .mapped = .ok text ∧
        Segmentation.ofSource (Source.ofBytes content) content.size 32705 0 = .ok s calls ∧
        segmentTables (viewed KeyHash.fnv1a content) (Table.ofSize Table.runSize) s.segments =
          .ok tables ∧
        max 32705 1 < tables.length := by
  have hMore : max 32705 1 < (Segment.raw 1069617024 32705).length := by
    rw [Segment.length_raw_of_long (by decide)]
    decide
  refine ⟨hMore, ?_⟩
  obtain ⟨content, observations, hSize, hReads, hCount, hNames⟩ :=
    exists_rows_of_six_bytes 178269504
  have hFew : observations.length < 2 ^ 31 := by
    rw [hCount]
    decide
  obtain ⟨text, hText⟩ := exists_ofFile_of_one_name "m" hReads hFew hNames 32705
  obtain ⟨s, calls, tables, hDivided, hTables⟩ := exists_tables_of_ofFile hText
  refine ⟨content, text, s, calls, tables, hSize, hText, hDivided, hTables, ?_⟩
  have hSupplies := (Source.serves_ofBytes content).supplies
  rw [length_segmentTables hTables,
    Segmentation.length_segments_eq hSupplies (linesWithin_of_reads hReads) hDivided, hSize]
  exact hMore

end Summary

end StationStats
