import StationStats.Proofs.Row.Refusal

/-!
Adding rows is safe whatever the bytes are. With the slack behind the range no access goes behind
the end, each row moves the start on, and the run ends with all rows added, with an error that names
the row it stopped at, or at a table that cannot take the next reading.
-/

namespace StationStats

/-- The row that an error is about. -/
def RowError.row? : RowError → Option Nat
  | .missingSlack _ _ => none
  | .missingSeparator row => some row
  | .separatorTooFar row => some row
  | .nameTooLong _ row => some row
  | .malformedMeasurement row => some row

/-! ### Accesses of one row -/

namespace Row

variable {rows : Bytes} {start : Nat}

/-- If there is no row in the result, it is an error about the row at `start`, and no fault. -/
def Answers (start : Nat) (result : Except (Halt RowError) Row) : Prop :=
  ∀ halt, result = .error halt → ∃ error, halt = .failed error ∧ error.row? = some start

theorem answers_failed {error : RowError} (h : error.row? = some start) :
    Answers start (.error (.failed error)) := by
  rintro halt hError
  cases hError
  exact ⟨error, rfl, h⟩

/-- With a word left behind the separator, there is one to take the reading from. -/
theorem answers_withReading {key : Key} (h : start + key.length + 1 + 8 ≤ rows.size) :
    Answers start (withReading rows start key) := by
  rw [withReading, Word.load?_eq, if_pos h]
  simp only
  split
  · exact answers_failed rfl
  · rintro halt hError
    cases hError

theorem answers_lookAt {lane : Lane} {missing goOn : Except (Halt RowError) Row}
    {found : Nat → Except (Halt RowError) Row} (hMissing : Answers start missing)
    (hGoOn : Answers start goOn)
    (hFound : ∀ p, lane.find? separator = some p → Answers start (found p)) :
    Answers start (lookAt lane missing goOn found) := by
  rw [lookAt]
  cases hSeparator : lane.find? separator with
  | none =>
      cases lane.find? lineFeed with
      | none => exact hGoOn
      | some f => exact hMissing
  | some p =>
      simp only
      split
      · exact hMissing
      · exact hFound p hSeparator

/-- The search behind the first lane stops by itself where the bytes end. -/
theorem answers_scanLong (rows : Bytes) (start : Nat) (gathered : List UInt64) (left : Nat) :
    Answers start (scanLong rows start gathered left) := by
  induction left generalizing gathered with
  | zero => exact answers_failed rfl
  | succ left ih =>
      rw [scanLong]
      cases Lane.load? rows (start + (keyLanes - (left + 1)) * laneBytes) with
      | none => exact answers_failed rfl
      | some lane =>
          refine answers_lookAt (answers_failed rfl) (ih _) fun p _ => ?_
          simp only
          split
          · exact answers_failed rfl
          · split
            · exact answers_failed rfl
            · exact answers_withReading (Nat.not_lt.mp ‹_›)

/-- The scan of a row that starts before the slack gives the row or an error about it. -/
theorem answers_scan (h : start + slack ≤ rows.size) : Answers start (scan rows start) := by
  have hRoom : start + 2 * laneBytes ≤ rows.size := h
  obtain ⟨lane, hLoad, hHolds⟩ := Lane.exists_load? (show start + laneBytes ≤ rows.size by omega)
  simp only [scan, hLoad]
  refine answers_lookAt (answers_failed rfl) (answers_scanLong rows start _ _) fun p hFound => ?_
  -- The separator stands in the first lane, so what is read behind it ends long
  -- before the slack does.
  have hLane : p < laneBytes := by
    rw [hHolds.find?] at hFound
    exact hHolds.length ▸ (List.findIdx?_eq_some_iff_getElem.mp hFound).1
  refine answers_withReading ?_
  simp only [laneBytes] at hLane hRoom ⊢
  omega

/-- The word that a reading was taken from lies inside the bytes. -/
theorem add_word_le_of_scan {row : Row} (h : scan rows start = .ok row) :
    start + row.key.length + 1 + 8 ≤ rows.size := by
  obtain ⟨p, hEnds⟩ := exists_endsAt_of_scan h
  have hRead := hEnds.read
  rw [withReading, Word.load?_eq] at hRead
  split at hRead
  · cases hRead
  · rename_i hWord
    have hRoom := (Option.ite_none_right_eq_some.mp hWord).1
    split at hRead <;> cases hRead
    exact hRoom

/-- A row ends at most six bytes behind its separator, and the byte behind its reading. -/
theorem length_le_of_scan {row : Row} (h : scan rows start = .ok row) :
    row.length ≤ row.key.length + 7 := by
  obtain ⟨text, behind, o, -, hRow, rfl⟩ := exists_isRow_of_scan h
  rw [length_ofText hRow]
  cases hRow with
  | mk _ _ _ hReading =>
      have hShort := hReading.length
      simp only [ofText, Key.length_packed, List.length_append, List.length_cons]
      omega

/-- The words of a scanned name are as many as its length asks for. -/
theorem length_words_of_scan {row : Row} (h : scan rows start = .ok row) :
    row.key.words.length = Word.countFor row.key.length := by
  obtain ⟨text, behind, o, -, -, rfl⟩ := exists_isRow_of_scan h
  simp only [ofText, Key.words_packed, Key.length_packed, Key.length_pack]

/-- All that is accessed of the row at `start` is there: the first lane and each later one that the
search gets to, the word of the reading, the words of the name and the byte behind the reading. The
next row starts behind this one. -/
structure InBounds (rows : Bytes) (start : Nat) : Prop where
  lane : ∀ k < keyLanes, k = 0 ∨ start + (k + 1) * laneBytes ≤ rows.size →
    ∃ lane, Lane.load? rows (start + k * laneBytes) = some lane
  answers : Answers start (scan rows start)
  word : ∀ row, scan rows start = .ok row → start + row.key.length + 1 + 8 ≤ rows.size
  words : ∀ row, scan rows start = .ok row → row.key.words.length = Word.countFor row.key.length
  next : ∀ row, scan rows start = .ok row → start < start + row.length ∧
    start + row.length ≤ rows.size

/-- Rows that start before the slack are in bounds. -/
theorem inBounds_of_slack (h : start + slack ≤ rows.size) : InBounds rows start where
  lane k _ hThere := by
    have hRoom : start + 2 * laneBytes ≤ rows.size := h
    have hLane : start + k * laneBytes + laneBytes ≤ rows.size := by
      rcases hThere with rfl | hThere
      · omega
      · rwa [Nat.add_assoc, ← Nat.succ_mul]
    obtain ⟨lane, hLoad, -⟩ := Lane.exists_load? hLane
    exact ⟨lane, hLoad⟩
  answers := answers_scan h
  word _ := add_word_le_of_scan
  words _ := length_words_of_scan
  next row hScan := by
    have hPos := row.length_pos
    have hWord := add_word_le_of_scan hScan
    have hLength := length_le_of_scan hScan
    omega

end Row

/-! ### Runs over rows -/

namespace Table

variable {hash : KeyHash} {t t' : Table hash}

/-- One row is taken: it is scanned, its reading is added, and a line feed stands behind it. -/
inductive TakesRow (rows : Bytes) :
    (start : Nat) → Table hash → (next : Nat) → Table hash → Prop where
  | mk {start : Nat} {row : Row} {t t' : Table hash} (hScan : Row.scan rows start = .ok row)
      (hAdded : add row.key row.reading.tenths t = .ok () t')
      (hFeed : rows[start + row.length - 1]? = some lineFeed) :
      TakesRow rows start t (start + row.length) t'

/-- Rows are taken one after the other, each of which starts before `len`. The
list has their starts. -/
inductive TakesRows (rows : Bytes) (len : Nat) :
    (starts : List Nat) → (start : Nat) → Table hash → (stop : Nat) → Table hash → Prop where
  | none (start : Nat) (t : Table hash) : TakesRows rows len [] start t start t
  | row {start next stop : Nat} {starts : List Nat} {t between t' : Table hash}
      (hStart : start < len)
      (first : TakesRow rows start t next between)
      (rest : TakesRows rows len starts next between stop t') :
      TakesRows rows len (start :: starts) start t stop t'

/-- A row that is taken moves the start on, and not behind the end. -/
theorem TakesRow.advances {rows : Bytes} {start next : Nat} (h : TakesRow rows start t next t') :
    start < next ∧ next ≤ rows.size := by
  cases h with
  | @mk row _ _ _ _ hFeed =>
      have hPos := row.length_pos
      have hLast := (Array.getElem?_eq_some_iff.mp hFeed).1
      omega

theorem TakesRow.bounded {rows : Bytes} {start next : Nat} (h : TakesRow rows start t next t')
    (hBounded : Bounded t) : Bounded t' := by
  cases h with
  | mk hScan hAdded =>
      obtain ⟨text, behind, o, -, hRow, rfl⟩ := Row.exists_isRow_of_scan hScan
      cases hRow with
      | mk _ _ _ hReading =>
          exact hBounded.absorb (Aggregate.bounded_single hReading.natAbs_le) hAdded

/-- The rows of a run start ever later, so there are no more of them than bytes to start at. -/
theorem TakesRows.starts {rows : Bytes} {len start stop : Nat} {starts : List Nat}
    (h : TakesRows rows len starts start t stop t') :
    starts.Pairwise (· < ·) ∧ (∀ s ∈ starts, start ≤ s ∧ s < len) ∧
      starts.length ≤ len - start := by
  induction h with
  | none => simp
  | @row start next stop starts _ _ _ hStart first _ ih =>
      obtain ⟨hPairwise, hRange, hLength⟩ := ih
      have hNext := first.advances.1
      refine ⟨List.pairwise_cons.mpr ⟨fun s hs => ?_, hPairwise⟩, ?_, ?_⟩
      · exact hNext.trans_le (hRange s hs).1
      · refine List.forall_mem_cons.mpr ⟨⟨le_rfl, hStart⟩, fun s hs => ?_⟩
        exact ⟨hNext.le.trans (hRange s hs).1, (hRange s hs).2⟩
      · rw [List.length_cons]
        omega

/-- What a run over rows comes to where it stops with a table: nothing is left, the row there cannot
be scanned or does not end behind its reading, or the table refuses its reading. -/
inductive Ends (rows : Bytes) (len stop : Nat) (t : Table hash) :
    EStateM.Result (Halt RowError) (Table hash) Unit → Prop where
  | all (hStop : len ≤ stop) : Ends rows len stop t (.ok () t)
  | noRow (hStop : stop < len) {error : RowError} (hError : error.row? = some stop) :
      Ends rows len stop t (.error (.failed error) t)
  | overrun (hStop : stop < len) {row : Row} (hScan : Row.scan rows stop = .ok row)
      {t' : Table hash} (hAdded : add row.key row.reading.tenths t = .ok () t') :
      Ends rows len stop t (.error (.failed (.malformedMeasurement stop)) t')
  | refused (hStop : stop < len) {row : Row} (hScan : Row.scan rows stop = .ok row) {fault : Fault}
      (hReason : Refuses t row.key fault) : Ends rows len stop t (.error (.fault fault) t)

theorem exists_takesRows {rows : Bytes} {len : Nat} (hSlack : len + slack ≤ rows.size) (start : Nat)
    (hBounded : Bounded t) :
    ∃ starts stop t', TakesRows rows len starts start t stop t' ∧
      Ends rows len stop t' (addRowsFrom rows len start t) := by
  fun_induction addRowsFrom rows len start t with
  | case1 start t hStart halt hScan =>
      have hRoom : start + slack ≤ rows.size := by omega
      obtain ⟨error, rfl, hError⟩ := Row.answers_scan hRoom halt hScan
      exact ⟨[], start, t, .none start t, .noRow hStart hError⟩
  | case2 start t hStart row hScan fault t' hRefused =>
      obtain ⟨text, behind, o, -, hRow, rfl⟩ := Row.exists_isRow_of_scan hScan
      refine ⟨[], start, t, .none start t, ?_⟩
      cases hRow with
      | mk _ _ _ hReading =>
          obtain ⟨rfl, hReason⟩ := hBounded.refuses_of_add_error hReading.natAbs_le hRefused
          exact .refused hStart hScan hReason
  | case3 start t hStart row hScan _ t' hAdded hFeed ih =>
      have hTakes : TakesRow rows start t (start + row.length) t' := .mk hScan hAdded hFeed
      obtain ⟨starts, stop, last, hRest, hEnds⟩ := ih (hTakes.bounded hBounded)
      exact ⟨start :: starts, stop, last, .row hStart hTakes hRest, hEnds⟩
  | case4 start t hStart row hScan _ t' hAdded hFeed =>
      exact ⟨[], start, t, .none start t, .overrun hStart hScan hAdded⟩
  | case5 start t hStart => exact ⟨[], start, t, .none start t, .all (Nat.not_lt.mp hStart)⟩

/-- Adding any rows to any table that can come about. Without the slack this fails and leaves the
table as it was. With it, what is accessed of the row at any start before `len` is there. Rows are
taken from starts that only grow, and what stops the run is one of four things, none of which is an
access behind the end. -/
theorem addRows_outcome (hReached : Reached t) (rows : Bytes) (len : Nat) :
    (rows.size < len + slack →
      addRows rows len t = .error (.failed (.missingSlack len (rows.size - min len rows.size))) t) ∧
    (len + slack ≤ rows.size →
      (∀ start < len, Row.InBounds rows start) ∧
        ∃ starts stop t', TakesRows rows len starts 0 t stop t' ∧ starts.Pairwise (· < ·) ∧
          starts.length ≤ len ∧ Ends rows len stop t' (addRows rows len t)) := by
  constructor
  · intro hShort
    rw [addRows, if_neg (Nat.not_le.mpr hShort)]
  · intro hSlack
    refine ⟨fun start hStart => Row.inBounds_of_slack (by omega), ?_⟩
    obtain ⟨starts, stop, t', hTakes, hEnds⟩ := exists_takesRows hSlack 0 hReached.bounded
    obtain ⟨hPairwise, -, hLength⟩ := hTakes.starts
    exact ⟨starts, stop, t', hTakes, hPairwise, hLength, by rwa [addRows, if_pos hSlack]⟩

/-- A second row that `len` cuts off and that goes on behind it, and the same
rows without the slack. -/
theorem addRows_outcome_cut_row :
    let rows : Bytes := #[97, 59, 49, 46, 48, 10, 98, 59, 50, 46] ++ Array.replicate 64 separator
    let t : Table KeyHash.fnv1a := ofSize ⟨9, 0x38e38e39, 1⟩
    addRows rows 11 t = .error (.failed (.missingSlack 11 63)) t ∧
      ∃ starts stop t', TakesRows rows 10 starts 0 t stop t' ∧ starts.length ≤ 10 ∧
        Ends rows 10 stop t' (addRows rows 10 t) := by
  intro rows t
  have hReached : Reached t := .start (show withCapacity 9 = .ok _ from rfl)
  have hSize : rows.size = 74 := rfl
  obtain ⟨-, starts, stop, t', hTakes, -, hLength, hEnds⟩ :=
    (addRows_outcome hReached rows 10).2 (by rw [hSize]; decide)
  exact ⟨(addRows_outcome hReached rows 11).1 (by rw [hSize]; decide), starts, stop, t', hTakes,
    hLength, hEnds⟩

end Table

end StationStats
