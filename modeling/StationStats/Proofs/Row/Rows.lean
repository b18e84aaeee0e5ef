import StationStats.Proofs.Row.Scan
import StationStats.Proofs.Station.Observe
import StationStats.Row.Rows

/-!
Adding a range of rows does what adding the observations of its lines one by one does, and
it succeeds exactly if every line is well-formed and every observation is taken. Nothing
behind the range matters.
-/

namespace StationStats.Table

variable {hash : KeyHash}

/-- A well-formed row is added under the key that its name packs into. -/
theorem observe_eq_add_of_isRow {text : List UInt8} {o : Observation} (h : IsRow text o)
    (t : Table hash) :
    observe o t = add (Row.ofText text o).key (Row.ofText text o).reading.tenths t := by
  cases h with
  | mk hLength => exact observe_eq (hLength.trans longestName_lt.le) t

/-! ### One line -/

/-- A well-formed row: its observation is added, and the rows behind it follow. -/
theorem addRowsFrom_line_eq {rows : Bytes} {len start : Nat} {line rest : List UInt8}
    {o : Observation} (hText : rows.toList.drop start = line ++ lineFeed :: rest)
    (hRow : IsRow line o) (hSlack : slack ≤ rest.length) (hStart : start < len) (t : Table hash) :
    addRowsFrom rows len start t =
      match observe o t with
      | .error fault t => .error (.fault fault) t
      | .ok _ t => addRowsFrom rows len (start + line.length + 1) t := by
  have hFeed : rows[start + line.length]? = some lineFeed := by
    rw [← Array.getElem?_toList, ← List.getElem?_drop, hText]
    simp
  have hScan : Row.scan rows start = .ok (Row.ofText line o) := by
    have hLine := hRow.lineFeed_not_mem
    rw [← List.append_nil line] at hText hLine
    exact Row.scan_of_isRow hRow hText hLine hSlack
  rw [addRowsFrom, if_pos hStart]
  cases hObserve : observe o t <;>
    simp only [hScan, ← observe_eq_add_of_isRow hRow, hObserve, Row.length_ofText hRow,
      ← Nat.add_assoc, Nat.add_sub_cancel, if_pos hFeed]

/-- What is counted of a line that is no row: the row that it begins with, if it does. -/
inductive Begins (line : List UInt8) : List Observation → Prop where
  | nothing (hNone : ∀ text o, text <+: line → ¬ IsRow text o) : Begins line []
  | row {text : List UInt8} {o : Observation} (hText : text <+: line) (hRow : IsRow text o) :
      Begins line [o]

/-- What comes of additions behind which a row fails: its error, unless one of them was refused. -/
def failsWith (error : RowError) :
    EStateM.Result Fault (Table hash) Unit → EStateM.Result (Halt RowError) (Table hash) Unit
  | .ok _ t => .error (.failed error) t
  | .error fault t => .error (.fault fault) t

/-- A line that is no row: the row it begins with is counted, if there is one,
and then the line fails. -/
theorem exists_addRowsFrom_line_eq (hash : KeyHash) {rows : Bytes} {len start : Nat}
    {line rest : List UInt8} (hText : rows.toList.drop start = line ++ lineFeed :: rest)
    (hLine : lineFeed ∉ line) (hNoRow : ∀ o, ¬ IsRow line o) (hSlack : slack ≤ rest.length)
    (hStart : start < len) :
    ∃ observations, Begins line observations ∧ ∀ t : Table hash,
      addRowsFrom rows len start t =
        failsWith (.ofLine line start) (observeAll observations t) := by
  cases hScan : Row.scan rows start with
  | error halt =>
      refine ⟨[], .nothing ?_, fun t => ?_⟩
      · rintro text o ⟨more, rfl⟩ hRow
        cases hScan.symm.trans (Row.scan_of_isRow hRow hText hLine hSlack)
      · obtain rfl := Row.halt_eq_of_scan hText hLine hSlack hScan
        simp only [addRowsFrom, if_pos hStart, hScan, observeAll_nil, failsWith]
  | ok row =>
      obtain ⟨text, behind, o, hBegins, hRow, rfl⟩ := Row.exists_isRow_of_scan hScan
      obtain ⟨more, rfl⟩ : text <+: line :=
        prefix_of_prefix_append hRow.lineFeed_not_mem ⟨behind, hBegins.symm.trans hText⟩
      have hFeed : rows[start + text.length]? ≠ some lineFeed := by
        cases more with
        | nil => exact absurd (by rwa [List.append_nil]) (hNoRow o)
        | cons b more =>
            rw [← Array.getElem?_toList, ← List.getElem?_drop, hText]
            intro hHead
            have hByte : b = lineFeed := by simpa using hHead
            exact hLine (by simp [hByte])
      refine ⟨[o], .row (List.prefix_append text more) hRow, fun t => ?_⟩
      rw [addRowsFrom, if_pos hStart]
      simp only [hScan, ← observe_eq_add_of_isRow hRow, Row.length_ofText hRow, ← Nat.add_assoc,
        Nat.add_sub_cancel, if_neg hFeed, observeAll, Row.ofLine_of_isRow hRow]
      cases observe o t <;> rfl

/-- One row: it is taken exactly if its line is well-formed and its observation is taken, and the
rows behind it follow. -/
theorem addRowsFrom_line_ok_iff {rows : Bytes} {len start : Nat} {line rest : List UInt8}
    (hText : rows.toList.drop start = line ++ lineFeed :: rest) (hLine : lineFeed ∉ line)
    (hSlack : slack ≤ rest.length) (hStart : start < len) {t t' : Table hash} :
    addRowsFrom rows len start t = .ok () t' ↔
      ∃ o between, IsRow line o ∧ observe o t = .ok () between ∧
        addRowsFrom rows len (start + line.length + 1) between = .ok () t' := by
  constructor
  · intro hAdded
    by_cases hRow : ∃ o, IsRow line o
    · obtain ⟨o, hRow⟩ := hRow
      rw [addRowsFrom_line_eq hText hRow hSlack hStart] at hAdded
      cases hObserve : observe o t with
      | error fault s => simp [hObserve] at hAdded
      | ok u between => exact ⟨o, between, hRow, hObserve, by simpa only [hObserve] using hAdded⟩
    · obtain ⟨observations, -, hFails⟩ :=
        exists_addRowsFrom_line_eq hash hText hLine (not_exists.mp hRow) hSlack hStart
      rw [hFails] at hAdded
      cases hCounted : observeAll observations t <;> simp [failsWith, hCounted] at hAdded
  · rintro ⟨o, between, hRow, hObserve, hRest⟩
    rw [addRowsFrom_line_eq hText hRow hSlack hStart, hObserve]
    exact hRest

/-! ### Ranges of rows -/

/-- The rows of a terminated text, wherever it stands and whatever follows it. -/
theorem addRowsFrom_ok_iff {rows : Bytes} {text behind : List UInt8} (hTerminated : Terminated text)
    (hSlack : slack ≤ behind.length) {len start : Nat}
    (hText : rows.toList.drop start = text ++ behind)
    (hLen : len = start + text.length) {t t' : Table hash} :
    addRowsFrom rows len start t = .ok () t' ↔
      ∃ observations, Reads text observations ∧ observeAll observations t = .ok () t' := by
  induction hTerminated using Terminated.lineInduction generalizing start t with
  | nil =>
      rw [addRowsFrom, if_neg (by simp [hLen])]
      simp [reads_nil_iff]
  | line line rest _ _ hLine ih =>
      rw [List.append_assoc, List.cons_append] at hText
      simp only [List.length_append, List.length_cons] at hLen
      have hNext := Row.drop_line_of_drop hText
      rw [addRowsFrom_line_ok_iff hText hLine (by simp only [List.length_append]; omega) (by omega)]
      simp only [ih hNext (by omega), reads_cons_line_iff hLine]
      constructor
      · rintro ⟨o, between, hRow, hObserve, more, hMore, hRest⟩
        exact ⟨o :: more, ⟨o, more, hRow, hMore, rfl⟩,
          observeAll_cons_ok_iff.mpr ⟨between, hObserve, hRest⟩⟩
      · rintro ⟨_, ⟨o, more, hRow, hMore, rfl⟩, hAll⟩
        obtain ⟨between, hObserve, hRest⟩ := observeAll_cons_ok_iff.mp hAll
        exact ⟨o, between, hRow, hObserve, more, hMore, hRest⟩

/-- Goes on behind some additions, unless one of them was refused. -/
def andThen {ε α : Type} (added : EStateM.Result Fault (Table hash) Unit)
    (next : EStateM (Halt ε) (Table hash) α) :
    EStateM.Result (Halt ε) (Table hash) α :=
  match added with
  | .ok _ t => next t
  | .error fault t => .error (.fault fault) t

/-- Well-formed rows come to what their observations come to. -/
theorem addRowsFrom_eq_of_reads {rows : Bytes} {text behind : List UInt8}
    (hTerminated : Terminated text) (hSlack : slack ≤ behind.length) {len start : Nat}
    (hText : rows.toList.drop start = text ++ behind) (hLen : len = start + text.length)
    {observations : List Observation} (hReads : Reads text observations) (t : Table hash) :
    addRowsFrom rows len start t = andThen (observeAll observations t) fun t => .ok () t := by
  induction hTerminated using Terminated.lineInduction generalizing start observations t with
  | nil =>
      rw [reads_nil_iff.mp hReads, addRowsFrom, if_neg (by simp [hLen])]
      rfl
  | line line rest _ _ hLine ih =>
      obtain ⟨o, more, hRow, hMore, rfl⟩ := (reads_cons_line_iff hLine).mp hReads
      rw [List.append_assoc, List.cons_append] at hText
      simp only [List.length_append, List.length_cons] at hLen
      have hNext := Row.drop_line_of_drop hText
      rw [addRowsFrom_line_eq hText hRow (by simp only [List.length_append]; omega) (by omega)]
      simp only [observeAll]
      cases observe o t with
      | error fault s => rfl
      | ok u s => exact ih hNext (by omega) hMore s

theorem addRows_eq_of_reads {rows : Bytes} {len : Nat} (hSlack : len + slack ≤ rows.size)
    (hTerminated : Terminated (rows.toList.take len)) {observations : List Observation}
    (hReads : Reads (rows.toList.take len) observations) (t : Table hash) :
    addRows rows len t = andThen (observeAll observations t) fun t => .ok () t := by
  have hBehind : slack ≤ (rows.toList.drop len).length := by
    rw [List.length_drop, Array.length_toList]
    omega
  rw [addRows, if_pos hSlack]
  refine addRowsFrom_eq_of_reads hTerminated hBehind (by simp) ?_ hReads t
  simp only [List.length_take, Array.length_toList]
  omega

/-- A range of rows that is terminated and has enough bytes behind it is added exactly if its lines
are well-formed and their observations are taken one by one, to the same table. -/
theorem addRows_ok_iff {rows : Bytes} {len : Nat} (hSlack : len + slack ≤ rows.size)
    (hTerminated : Terminated (rows.toList.take len)) {t t' : Table hash} :
    addRows rows len t = .ok () t' ↔
      ∃ observations, Reads (rows.toList.take len) observations ∧
        observeAll observations t = .ok () t' := by
  rw [addRows, if_pos hSlack]
  have hBehind : slack ≤ (rows.toList.drop len).length := by
    rw [List.length_drop, Array.length_toList]
    omega
  refine addRowsFrom_ok_iff hTerminated hBehind ?_ ?_
  · simp
  · simp only [List.length_take, Array.length_toList]
    omega

end StationStats.Table

namespace StationStats

namespace Bytes

/-- Completing a text puts a line feed behind it unless it is terminated. -/
theorem toList_completed (bytes : Bytes) :
    bytes.completed.toList = if Terminated bytes.toList then bytes.toList else bytes.toList ++
      [lineFeed] := by
  have hBack : bytes.back? = bytes.toList.getLast? := (Array.getLast?_toList bytes).symm
  rw [completed, hBack]
  cases hLast : bytes.toList.getLast? with
  | none => rw [if_pos (by simp [Terminated, hLast])]
  | some last =>
      by_cases hFeed : last = lineFeed
      · rw [if_pos (by simpa [Terminated, hLast] using hFeed)]
        simp only [if_pos hFeed]
      · rw [if_neg (by simpa [Terminated, hLast] using hFeed)]
        simp only [if_neg hFeed, Array.toList_push]

theorem terminated_completed (bytes : Bytes) : Terminated bytes.completed.toList := by
  rw [toList_completed]
  split
  · assumption
  · simp [Terminated]

theorem completed_eq {bytes : Bytes} (h : Terminated bytes.toList) : bytes.completed = bytes := by
  rw [← Array.toList_inj, toList_completed, if_pos h]

/-- What stands before the last bytes does not matter to how a text is completed. -/
theorem toList_completed_of_append {bytes last : Bytes} {first : List UInt8}
    (hBytes : bytes.toList = first ++ last.toList) (hSome : last.toList ≠ []) :
    bytes.completed.toList = first ++ last.completed.toList := by
  have hTerminated : Terminated (first ++ last.toList) ↔ Terminated last.toList := by
    rw [Terminated, List.getLast?_append_of_ne_nil first hSome, Terminated]
  simp only [toList_completed, hBytes, hTerminated]
  split
  · rfl
  · rw [List.append_assoc]

end Bytes

/-- The padded bytes are the completed ones with the slack behind them. -/
theorem Bytes.padded_spec (bytes : Bytes) : bytes.completed.size + slack ≤ bytes.padded.size ∧
    bytes.padded.toList.take bytes.completed.size = bytes.completed.toList := by
  constructor
  · rw [Bytes.padded, Array.size_append, Array.size_replicate]
  · rw [Bytes.padded, Array.toList_append, ← Array.length_toList, List.take_left]

/-- Bytes that are completed are added exactly if the lines they then have are well-formed and their
observations are taken one by one. -/
theorem Table.addCompleted_ok_iff {hash : KeyHash} {bytes : Bytes} {t t' : Table hash} :
    addCompleted bytes t = .ok () t' ↔
      ∃ observations, Reads bytes.completed.toList observations ∧
        observeAll observations t = .ok () t' := by
  obtain ⟨hSlack, hTake⟩ := bytes.padded_spec
  rw [addCompleted, addRows_ok_iff hSlack (by rw [hTake]; exact bytes.terminated_completed), hTake]

end StationStats
