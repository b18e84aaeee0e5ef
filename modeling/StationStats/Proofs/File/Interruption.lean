import Mathlib.Data.List.DropRight
import StationStats.Proofs.File.Stream
import StationStats.Proofs.Row.Crowding

/-!
Reading a segment that is cut short. What has been delivered by then decides what is in the table:
its whole lines, each counted once, and nothing of the part of a line behind them. That part is what
the buffer carries, whatever the reads were like.
-/

namespace StationStats

/-! ### The end of a text that is not terminated -/

/-- What stands behind the last line feed of a text. -/
def unfinished (text : List UInt8) : List UInt8 := text.rtakeWhile (· ≠ lineFeed)

theorem unfinished_append {whole rest : List UInt8} (hWhole : Terminated whole)
    (hRest : lineFeed ∉ rest) :
    unfinished (whole ++ rest) = rest := by
  induction rest using List.reverseRecOn with
  | nil =>
      rw [List.append_nil, unfinished, List.rtakeWhile_eq_nil_iff]
      intro hSome
      simpa using hWhole _ (List.getLast?_eq_some_getLast hSome)
  | append_singleton rest b ih =>
      rw [List.mem_append, List.mem_singleton, not_or] at hRest
      have hOther : decide (b ≠ lineFeed) = true := decide_eq_true (Ne.symm hRest.2)
      have hBefore := ih hRest.1
      rw [unfinished] at hBefore
      rw [unfinished, ← List.append_assoc, List.rtakeWhile_concat, if_pos hOther, hBefore]

/-- A text is whole lines and what stands behind them. -/
theorem exists_append_unfinished (text : List UInt8) :
    ∃ whole, text = whole ++ unfinished text ∧ Terminated whole ∧ lineFeed ∉ unfinished text := by
  obtain ⟨whole, rest, rfl, hWhole, hRest⟩ := exists_terminated_append text
  exact ⟨whole, by rw [unfinished_append hWhole hRest],
    hWhole, by rwa [unfinished_append hWhole hRest]⟩

/-- Whole lines before a text do not change what stands behind its last line feed. -/
theorem unfinished_append_left {whole : List UInt8} (hWhole : Terminated whole)
    (text : List UInt8) :
    unfinished (whole ++ text) = unfinished text := by
  obtain ⟨more, hText, hMore, hRest⟩ := exists_append_unfinished text
  conv_lhs => rw [hText, ← List.append_assoc]
  exact unfinished_append (hWhole.append hMore) hRest

/-- What stands behind the last line feed is not read. -/
theorem reads_append_of_not_mem {whole rest : List UInt8} (hWhole : Terminated whole)
    (hRest : lineFeed ∉ rest) {observations : List Observation} :
    Reads (whole ++ rest) observations ↔ Reads whole observations := by
  rw [Reads, lines_append hWhole, lines_eq_nil hRest, List.append_nil, Reads]

/-! ### What reads deliver -/

namespace Table

variable {hash : KeyHash} {source : Source} {segment : Segment} {room calls : Nat}
  {text : List UInt8}

/-- The answer to the read that follows when this text of a segment is there: it goes on
where the text ends, and asks for no more than is left of the segment and fits behind the
part of a line that is kept. -/
def nextRead (source : Source) (segment : Segment) (room calls : Nat) (text : List UInt8) :
    Except ReadError Bytes :=
  source.read calls (segment.offset + text.length)
    (min (segment.stop - (segment.offset + text.length)) (room - (unfinished text).length))

/-- What so many reads of a segment deliver, if each of them delivers something before the end of
the segment and no part of a line comes to fill the room for rows. -/
inductive Receives (source : Source) (segment : Segment) (room : Nat) :
    (calls : Nat) → (text : List UInt8) → Prop where
  | start : Receives source segment room 0 []
  | read {calls : Nat} {text : List UInt8} {bytes : Bytes}
      (before : Receives source segment room calls text)
      (hInside : segment.offset + text.length < segment.stop)
      (hRead : nextRead source segment room calls text = .ok bytes) (hSome : 0 < bytes.size)
      (hFits : (unfinished (text ++ bytes.toList)).length < room) :
      Receives source segment room (calls + 1) (text ++ bytes.toList)

/-- The read that follows fails or delivers nothing, which is reported with this error. -/
inductive Interrupted (source : Source) (segment : Segment) (room calls : Nat) (text : List UInt8) :
    StreamError → Prop where
  | failed {error : ReadError} (hRead : nextRead source segment room calls text = .error error) :
      Interrupted source segment room calls text (.readFailed (segment.offset + text.length) error)
  | nothing (hRead : nextRead source segment room calls text = .ok #[]) :
      Interrupted source segment room calls text
        (.unexpectedEnd (segment.offset + text.length) segment)

/-- What is delivered is the front of the segment. -/
theorem Receives.eq_take {content : Bytes} (hDelivers : source.Delivers content)
    (h : Receives source segment room calls text) :
    text = (segment.part content).take text.length := by
  induction h with
  | start => rfl
  | @read calls text bytes _ hInside hRead hSome _ ih =>
      have hSize := source.size_le hRead
      have hBytes := hDelivers.toList_eq hRead
      have hLeft : bytes.size ≤ segment.length - text.length := by
        simp only [Segment.stop] at hSize
        omega
      rw [List.length_append, List.take_add, ← ih, Segment.part, List.drop_take, List.drop_drop,
        List.take_take, Array.length_toList, Nat.min_eq_left hLeft, ← hBytes]

/-! ### What the loop does with it -/

theorem andThen_observeAll_append {ε α : Type} (before after : List Observation) (t : Table hash)
    (next : EStateM (Halt ε) (Table hash) α) :
    andThen (observeAll (before ++ after) t) next =
      andThen (observeAll before t) fun t => andThen (observeAll after t) next := by
  induction before generalizing t with
  | nil => rfl
  | cons o before ih =>
      simp only [List.cons_append, observeAll]
      cases observe o t with
      | error fault t' => rfl
      | ok u t' => exact ih t'

/-- A buffer of this size carries this part of a line at its front. -/
structure Keeps (buffer : Bytes) (size : Nat) (rest : List UInt8) : Prop
    extends Carries buffer rest.length where
  size_eq : buffer.size = size
  take_eq : buffer.toList.take rest.length = rest

/-- One round of the loop: the whole lines that are there are added, and the part of a
line behind them is kept. -/
theorem Keeps.exists_addReadsFrom_eq (hash : KeyHash) {buffer bytes : Bytes} {size offset : Nat}
    {rest : List UInt8} (hKeeps : Keeps buffer size rest) (hInside : offset < segment.stop)
    (hRead : source.read calls offset (min (segment.stop - offset) (size - slack - rest.length)) =
      .ok bytes)
    (hSome : 0 < bytes.size) (hFits : (unfinished (rest ++ bytes.toList)).length < size - slack)
    {observations : List Observation} (hReads : Reads (rest ++ bytes.toList) observations) :
    ∃ buffer', Keeps buffer' size (unfinished (rest ++ bytes.toList)) ∧ ∀ t : Table hash,
      addReadsFrom source segment offset rest.length calls buffer t =
        andThen (observeAll observations t) (addReadsFrom source segment (offset + bytes.size)
          (unfinished (rest ++ bytes.toList)).length (calls + 1) buffer') := by
  obtain ⟨hCarries, rfl, hTake⟩ := hKeeps
  have hRoom := hCarries.room
  have hWanted := source.size_le hRead
  have hFilled := take_filled (show rest.length + bytes.size ≤ buffer.size by omega)
  have hSlack :=
    wholeRows_add_slack_le hCarries (show bytes.size ≤ buffer.size - slack - rest.length by omega)
  have hSize : (buffer.overwrite rest.length bytes.toList).size = buffer.size :=
    Bytes.size_overwrite _ _ _
  rw [hTake] at hFilled
  -- The buffer behind the read, its whole lines and what stands behind them.
  generalize hNext : buffer.overwrite rest.length bytes.toList = next at hFilled hSlack hSize
  have hWhole := Bytes.terminated_take_wholeRows next (rest.length + bytes.size)
  have hNoFeed := Bytes.lineFeed_not_mem_drop_wholeRows next (rest.length + bytes.size)
  have hSplit := take_eq_append_partialRow next (rest.length + bytes.size)
  have hUnfinished : unfinished (rest ++ bytes.toList) =
      (next.extract (next.wholeRows (rest.length + bytes.size))
        (rest.length + bytes.size)).toList := by
    rw [← hFilled, hSplit, unfinished_append hWhole hNoFeed, toList_partialRow]
  have hLength : (unfinished (rest ++ bytes.toList)).length =
      (next.extract (next.wholeRows (rest.length + bytes.size))
        (rest.length + bytes.size)).size := by
    rw [hUnfinished]
    exact Array.length_toList
  rw [hLength] at hFits
  rw [← hFilled, hSplit, reads_append_of_not_mem hWhole hNoFeed] at hReads
  refine ⟨next.overwrite 0 (unfinished (rest ++ bytes.toList)),
    ⟨?_, (Bytes.size_overwrite _ _ _).trans hSize, ?_⟩, fun t => ?_⟩
  · rw [hLength, hUnfinished]
    exact carries_partialRow next (rest.length + bytes.size) (by rwa [hSize])
  · rw [hLength, hUnfinished, take_partialRow, toList_partialRow]
  · rw [addReadsFrom, if_pos hInside]
    simp only [hRead, if_neg hSome.ne', hNext, addRows_eq_of_reads hSlack hWhole hReads]
    cases observeAll observations t with
    | error fault t' => rfl
    | ok u t' =>
        simp only [andThen]
        rw [if_pos hFits, hLength, hUnfinished]

/-- What the loop comes to once it has received a text: the whole lines of it are added,
and the rest is kept. -/
theorem Receives.exists_addReads_eq (hash : KeyHash) {buffer : Bytes} (hRoom : slack < buffer.size)
    (h : Receives source segment (buffer.size - slack) calls text) {observations : List Observation}
    (hReads : Reads text observations) :
    ∃ buffer', Keeps buffer' buffer.size (unfinished text) ∧ ∀ t : Table hash,
      addReads source segment buffer t = andThen (observeAll observations t)
        (addReadsFrom source segment (segment.offset + text.length) (unfinished text).length calls
          buffer') := by
  induction h generalizing observations with
  | start =>
      obtain rfl := reads_nil_iff.mp hReads
      refine ⟨buffer, ⟨⟨Nat.sub_pos_of_lt hRoom, List.not_mem_nil⟩, rfl, rfl⟩, fun t => ?_⟩
      rw [addReads, if_pos hRoom]
      rfl
  | @read calls text bytes _ hInside hRead hSome hFits ih =>
      obtain ⟨whole, hText, hWhole, hNoFeed⟩ := exists_append_unfinished text
      -- The lines that end in what has just been read begin in what was kept.
      have hSplit : text ++ bytes.toList = whole ++ (unfinished text ++ bytes.toList) := by
        rw [← List.append_assoc, ← hText]
      have hUnfinished :
          unfinished (text ++ bytes.toList) = unfinished (unfinished text ++ bytes.toList) := by
        rw [hSplit, unfinished_append_left hWhole]
      rw [hSplit] at hReads
      obtain ⟨first, later, hFirst, hLater, rfl⟩ := (reads_append_iff hWhole).mp hReads
      rw [← reads_append_of_not_mem hWhole hNoFeed, ← hText] at hFirst
      rw [hUnfinished] at hFits ⊢
      obtain ⟨between, hKeeps, hBefore⟩ := ih hFirst
      obtain ⟨buffer', hKept, hRound⟩ :=
        hKeeps.exists_addReadsFrom_eq hash hInside hRead hSome hFits hLater
      refine ⟨buffer', hKept, fun t => ?_⟩
      rw [andThen_observeAll_append, hBefore, List.length_append, Array.length_toList,
        ← Nat.add_assoc]
      exact congrArg (andThen (observeAll first t)) (funext hRound)

/-- A read that fails or delivers nothing before the end of the segment ends the loop with an error
at its offset. What is then in the table is what the whole lines say that had been delivered, each
counted once, and nothing of the part of a line behind them. Only a table that refuses one of these
lines ends this otherwise. None does that has room for the lines, and positions for their names,
which room gives in all sizes but the largest one. -/
theorem addReads_interrupted {t : Table hash} (hReached : Reached t) {content : Bytes}
    (hDelivers : source.Delivers content) {buffer : Bytes} (hRoom : slack < buffer.size)
    (hReceives : Receives source segment (buffer.size - slack) calls text)
    (hInside : segment.offset + text.length < segment.stop) {error : StreamError}
    (hInterrupted : Interrupted source segment (buffer.size - slack) calls text error)
    {observations : List Observation} (hReads : Reads text observations) :
    text = (segment.part content).take text.length ∧
      ((∃ t', addReads source segment buffer t = .error (.failed error) t' ∧
          observeAll observations t = .ok () t') ∨
        ∃ fault t', addReads source segment buffer t = .error (.fault fault) t' ∧
          Refused t fault t' observations) ∧
      (RoomFor t (observations.map Observation.name) →
        t.capacity ≤ 294594427 ∨ t.HasPositionsFor (observations.map Observation.name) →
          ∃ t', addReads source segment buffer t = .error (.failed error) t' ∧
            observeAll observations t = .ok () t') := by
  obtain ⟨buffer', hKeeps, hAll⟩ := hReceives.exists_addReads_eq hash hRoom hReads
  have hLast (t : Table hash) : addReadsFrom source segment (segment.offset + text.length)
      (unfinished text).length calls buffer' t = .error (.failed error) t := by
    rw [addReadsFrom, if_pos hInside]
    simp only [hKeeps.size_eq]
    cases hInterrupted with
    | failed hRead =>
        rw [nextRead] at hRead
        simp only [hRead]
    | nothing hRead =>
        rw [nextRead] at hRead
        simp only [hRead]
        rw [if_pos Array.size_empty]
  have hStops {t' : Table hash} (hAdded : observeAll observations t = .ok () t') :
      addReads source segment buffer t = .error (.failed error) t' := by
    rw [hAll, hAdded, andThen, hLast]
  refine ⟨hReceives.eq_take hDelivers, ?_, fun hLines hPositions => ?_⟩
  · rcases hReached.bounded.observeAll_cases hReads.forall_mem with
      ⟨t', hAdded⟩ | ⟨fault, t', hRefused⟩
    · exact Or.inl ⟨t', hStops hAdded, hAdded⟩
    · refine Or.inr ⟨fault, t', ?_, hRefused⟩
      rw [hAll, hRefused.observeAll_eq, andThen]
  · have hLegal := hReads.forall_mem
    rcases hPositions with hCapacity | hPositions
    · obtain ⟨t', hAdded, -⟩ :=
        (hReached.regular_of_capacity hCapacity).exists_observeAll_of_capacity
        hCapacity hLegal hLines
      exact ⟨t', hStops hAdded, hAdded⟩
    · obtain ⟨t', hAdded, -⟩ := (hReached.regular hPositions.held).exists_observeAll hLegal hLines
        hPositions
      exact ⟨t', hStops hAdded, hAdded⟩

/-- Eight bytes of two lines are delivered, and then a read fails in the middle of the second. -/
theorem interrupted_after_eight_bytes :
    let source := (Schedule.mk (some 8) [(1, .failure .other)]).source
      #[97, 59, 49, 46, 48, 10, 98, 59, 50, 46, 48, 10]
    Receives source ⟨0, 12⟩ 107 1 [97, 59, 49, 46, 48, 10, 98, 59] ∧
      Interrupted source ⟨0, 12⟩ 107 1 [97, 59, 49, 46, 48, 10, 98, 59]
        (.readFailed 8 ⟨.other, "fault in call 1"⟩) ∧
      Reads [97, 59, 49, 46, 48, 10, 98, 59] [⟨[97], 10⟩] := by
  intro source
  have hRead : nextRead source ⟨0, 12⟩ 107 0 [] = .ok #[97, 59, 49, 46, 48, 10, 98, 59] := rfl
  exact ⟨.read .start (by decide) hRead (by decide) (by decide), .failed rfl,
    List.Forall₂.cons isRow_one_byte .nil⟩

/-- The row of the line that is there is counted, and nothing else. -/
theorem addReads_interrupted_in_second_line :
    let source := (Schedule.mk (some 8) [(1, .failure .other)]).source
      #[97, 59, 49, 46, 48, 10, 98, 59, 50, 46, 48, 10]
    let t : Table KeyHash.fnv1a := ofSize ⟨9, 0x38e38e39, 1⟩
    ∃ t', addReads source ⟨0, 12⟩ (Array.replicate 171 0) t =
        .error (.failed (.readFailed 8 ⟨.other, "fault in call 1"⟩)) t' ∧
      observeAll [⟨[97], 10⟩] t = .ok () t' := by
  intro source t
  have hReached : Reached t := .start (show withCapacity 9 = .ok _ from rfl)
  have hRoom : (Array.replicate 171 (0 : UInt8)).size - slack = 107 := by
    rw [Array.size_replicate]; rfl
  obtain ⟨hReceives, hInterrupted, hReads⟩ := interrupted_after_eight_bytes
  rw [← hRoom] at hReceives hInterrupted
  obtain ⟨-, -, hEnds⟩ := addReads_interrupted hReached (Source.delivers_schedule _ _) (by omega)
    hReceives (by decide) hInterrupted hReads
  exact hEnds (roomFor_ofSize (by decide) (by decide)) (Or.inl (by decide))

/-- With a count at the end of its field the same reads end otherwise, although
the station is listed. -/
theorem addReads_overflows_before_interruption :
    let source := (Schedule.mk (some 8) [(1, .failure .other)]).source
      #[97, 59, 49, 46, 48, 10, 98, 59, 50, 46, 48, 10]
    ∃ t : Table KeyHash.fnv1a, Reached t ∧
      t.stations =
        [⟨[97], { sum := 21474836470, count := 2147483647, least := 10, greatest := 10 }⟩] ∧
      Receives source ⟨0, 12⟩ 107 1 [97, 59, 49, 46, 48, 10, 98, 59] ∧
      Interrupted source ⟨0, 12⟩ 107 1 [97, 59, 49, 46, 48, 10, 98, 59]
        (.readFailed 8 ⟨.other, "fault in call 1"⟩) ∧
      Reads [97, 59, 49, 46, 48, 10, 98, 59] [⟨[97], 10⟩] ∧
      addReads source ⟨0, 12⟩ (Array.replicate 171 0) t = .error (.fault .overflow) t := by
  intro source
  obtain ⟨t, hReached, hStations, hRefused⟩ := exists_reached_exhausted
  have hRoom : (Array.replicate 171 (0 : UInt8)).size - slack = 107 := by
    rw [Array.size_replicate]; rfl
  obtain ⟨hReceives, hInterrupted, hReads⟩ := interrupted_after_eight_bytes
  refine ⟨t, hReached, hStations, hReceives, hInterrupted, hReads, ?_⟩
  rw [← hRoom] at hReceives
  obtain ⟨buffer', -, hAll⟩ := hReceives.exists_addReads_eq KeyHash.fnv1a (by omega) hReads
  have hObserved : observeAll [⟨[97], 10⟩] t = .error .overflow t := by
    rw [observeAll]
    simp only [hRefused]
  rw [hAll, hObserved, andThen]

/-! ### The largest size -/

/-- Whole lines that are delivered in one read, behind which the next read fails. -/
theorem receives_and_interrupted (text : List UInt8) (hSome : 0 < text.length)
    (hTerminated : Terminated text) :
    let source := (Schedule.mk none [(1, .failure .other)]).source (text ++ [separator]).toArray
    Receives source ⟨0, text.length + 1⟩ text.length 1 text ∧
      Interrupted source ⟨0, text.length + 1⟩ text.length 1 text
        (.readFailed text.length ⟨.other, "fault in call 1"⟩) := by
  intro source
  have hNone : unfinished text = [] := by
    have hWhole := unfinished_append hTerminated List.not_mem_nil
    rwa [List.append_nil] at hWhole
  have hFront : (text ++ [separator]).toArray.extract 0 text.length = text.toArray := by
    rw [← Array.toList_inj, Array.toList_extract, List.extract_eq_take_drop]
    simp
  have hRead : nextRead source ⟨0, text.length + 1⟩ text.length 0 [] = .ok text.toArray := by
    have hAsked : min ((Segment.mk 0 (text.length + 1)).stop - (0 + ([] : List UInt8).length))
        (text.length - (unfinished []).length) = text.length := by
      simp [Segment.stop, unfinished]
    rw [nextRead, hAsked, ← hFront]
    simp [source, Schedule.source, Schedule.answer, Schedule.interference?]
  constructor
  · exact .read .start (Nat.succ_pos _) hRead hSome (by simpa [hNone] using hSome)
  · have hFailed : nextRead source ⟨0, text.length + 1⟩ text.length 1 text =
        .error ⟨.other, "fault in call 1"⟩ := rfl
    have hError := Interrupted.failed hFailed
    rwa [Nat.zero_add] at hError

/-- With more names than there are positions for, the whole lines that are delivered can fill the
largest table although it has room for them, and the error of the read is not reported. -/
theorem exists_addReads_tableFull (hash : KeyHash) {wanted : Nat} (h : 294594427 < wanted)
    (hAccepted : wanted ≤ 733045421) :
    ∃ (start t : Table hash) (source : Source) (content : Bytes) (segment : Segment)
      (buffer : Bytes) (text : List UInt8) (error : StreamError),
      withCapacity wanted = .ok start ∧ source.Delivers content ∧ slack < buffer.size ∧
      Receives source segment (buffer.size - slack) 1 text ∧
      segment.offset + text.length < segment.stop ∧
      Interrupted source segment (buffer.size - slack) 1 text error ∧
      Reads text (rush 196174510) ∧ RoomFor start ((rush 196174510).map Observation.name) ∧
      addReads source segment buffer start = .error (.fault (.tableFull 733045421)) t := by
  obtain ⟨start, t, hStart, -, hRoom, hFull⟩ := exists_tableFull_of_rush hash h hAccepted
  obtain ⟨text, hTerminated, hReads⟩ :=
    exists_text_of_rows fun o ho => exists_isRow_of_mem_rush (n := 196174510) ho
  have hSome : 0 < text.length := by
    refine List.length_pos_iff.mpr fun hNone => ?_
    rw [hNone] at hReads
    have hLength := length_rush 196174510
    rw [reads_nil_iff.mp hReads, List.length_nil] at hLength
    omega
  obtain ⟨hReceives, hInterrupted⟩ := receives_and_interrupted text hSome hTerminated
  have hSize : (Array.replicate (text.length + slack) (0 : UInt8)).size - slack = text.length := by
    rw [Array.size_replicate, Nat.add_sub_cancel]
  have hBuffer : slack < (Array.replicate (text.length + slack) (0 : UInt8)).size := by
    rw [Array.size_replicate]
    exact Nat.lt_add_of_pos_left hSome
  refine ⟨start, t, _, _, _, _, text, _, hStart, Source.delivers_schedule _ _, hBuffer,
    hSize.symm ▸ hReceives, ?_, hSize.symm ▸ hInterrupted, hReads, hRoom, ?_⟩
  · simp only [Segment.stop]
    omega
  · obtain ⟨_, -, hAll⟩ := (hSize.symm ▸ hReceives).exists_addReads_eq hash hBuffer hReads
    rw [hAll, hFull, andThen]

end Table

end StationStats
