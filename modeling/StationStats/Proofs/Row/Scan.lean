import StationStats.Proofs.Row.Measurement
import StationStats.Proofs.Word.Lane
import StationStats.Row.Scan

/-!
What the scan of a row finds, said about the line that stands where the row starts. The lanes end at
fixed offsets and may hold bytes of the rows behind; as long as the line feed of the line is in
sight, none of these bytes changes the result.
-/

namespace StationStats

/-- The error of a line that is no row: its first separator decides. -/
def RowError.ofLine (line : List UInt8) (start : Nat) : RowError :=
  match line.findIdx? (· == separator) with
  | none => if line.length < keyBytes then .missingSeparator start else .separatorTooFar start
  | some p =>
    if keyBytes ≤ p then .separatorTooFar start
    else if longestName < p then .nameTooLong p start
    else .malformedMeasurement start

namespace Row

/-! ### One lane -/

section Lane

variable {lane : Lane} {line rest : List UInt8}

/-- The bytes of a lane that starts on a line: those of the line as far as it goes. -/
theorem getElem?_lane (i : Nat) (hi : i < line.length) (hLane : i < laneBytes) :
    ((line ++ lineFeed :: rest).take laneBytes)[i]? = (line)[i]? := by
  rw [List.getElem?_take_of_lt hLane, List.getElem?_append_left hi]

/-- A lane inside a text finds nothing that the text does not have. -/
theorem find?_eq_none_of_inside {text : List UInt8}
    (hHolds : lane.Holds ((text ++ rest).take laneBytes))
    (hLength : laneBytes ≤ text.length) {b : UInt8} (hb : b ∉ text) : lane.find? b = none := by
  rw [hHolds.find?, List.take_append_of_le_length hLength, findIdx?_beq_eq_none_iff]
  exact fun hMem => hb (List.mem_of_mem_take hMem)

/-- If a line without a separator ends in the lane, its line feed comes before any separator
found. -/
theorem lane_ended (hHolds : lane.Holds ((line ++ lineFeed :: rest).take laneBytes))
    (hLine : lineFeed ∉ line) (hSeparator : separator ∉ line) (hLength : line.length < laneBytes) :
    lane.find? lineFeed = some line.length ∧
      ∀ p, lane.find? separator = some p → line.length < p := by
  rw [hHolds.find?, hHolds.find?]
  constructor
  · refine findIdx?_beq_eq_some_iff.mpr ⟨?_, fun j hj => ?_⟩
    · rw [List.getElem?_take_of_lt hLength]
      simp
    · rw [getElem?_lane j hj (hj.trans hLength)]
      exact fun hAt => hLine (List.mem_of_getElem? hAt)
  · intro p hFound
    have hAt := (findIdx?_beq_eq_some_iff.mp hFound).1
    by_contra hEarly
    rcases Nat.lt_or_eq_of_le (Nat.not_lt.mp hEarly) with hBefore | hHere
    · rw [getElem?_lane p hBefore (hBefore.trans hLength)] at hAt
      exact hSeparator (List.mem_of_getElem? hAt)
    · subst hHere
      rw [List.getElem?_take_of_lt hLength] at hAt
      simp [lineFeed, separator] at hAt

/-- What one lane decides: the row has no separator, the search goes on, or the separator is
found. -/
def lookAt {α : Type} (lane : Lane) (missing goOn : α) (found : Nat → α) : α :=
  match lane.find? separator, lane.find? lineFeed with
  | none, some _ => missing
  | none, none => goOn
  | some position, feed => if feed.any (· < position) then missing else found position

/-- A lane that starts inside a name finds the separator behind it, or nothing if the name
goes on behind the lane. -/
theorem lookAt_of_separator {α : Type} {name : List UInt8}
    (hHolds : lane.Holds ((name ++ separator :: rest).take laneBytes))
    (hSeparator : separator ∉ name) (hLineFeed : lineFeed ∉ name) (missing goOn : α)
    (found : Nat → α) :
    lookAt lane missing goOn found = if name.length < laneBytes then found name.length
      else goOn := by
  by_cases hLane : name.length < laneBytes
  · have hFound : lane.find? separator = some name.length := by
      rw [hHolds.find?, List.findIdx?_take, findIdx?_beq_append hSeparator, Option.bind_some,
        Option.guard_eq_some_iff]
      exact ⟨rfl, by simpa using hLane⟩
    have hLate : (lane.find? lineFeed).any (· < name.length) = false := by
      rw [Option.any_eq_false]
      intro f hFeed
      by_contra hEarly
      have hBefore : f < name.length := by simpa using hEarly
      rw [hHolds.find?] at hFeed
      have hAt := (findIdx?_beq_eq_some_iff.mp hFeed).1
      rw [List.getElem?_take_of_lt (hBefore.trans hLane), List.getElem?_append_left hBefore] at hAt
      exact hLineFeed (List.mem_of_getElem? hAt)
    simp [lookAt, hFound, hLate, hLane]
  · have hInside := Nat.not_lt.mp hLane
    have hSep := find?_eq_none_of_inside hHolds hInside hSeparator
    have hFeed := find?_eq_none_of_inside hHolds hInside hLineFeed
    simp [lookAt, hSep, hFeed, hLane]

/-- One lane decides what the line decides: nothing behind the line feed of the line counts. -/
theorem lookAt_eq {α : Type} (hHolds : lane.Holds ((line ++ lineFeed :: rest).take laneBytes))
    (hLine : lineFeed ∉ line) (missing goOn : α) (found : Nat → α) :
    lookAt lane missing goOn found =
      match line.findIdx? (· == separator) with
      | none => if line.length < laneBytes then missing else goOn
      | some p => if p < laneBytes then found p else goOn := by
  cases hFirst : line.findIdx? (· == separator) with
  | none =>
      have hClear := findIdx?_beq_eq_none_iff.mp hFirst
      by_cases hEnds : line.length < laneBytes
      · obtain ⟨hFeed, hBehind⟩ := lane_ended hHolds hLine hClear hEnds
        cases hSep : lane.find? separator with
        | none => simp [lookAt, hSep, hFeed, hEnds]
        | some p => simp [lookAt, hSep, hFeed, hEnds, hBehind p hSep]
      · have hInside := Nat.not_lt.mp hEnds
        have hSep := find?_eq_none_of_inside hHolds hInside hClear
        have hFeed := find?_eq_none_of_inside hHolds hInside hLine
        simp [lookAt, hSep, hFeed, hEnds]
  | some p =>
      obtain ⟨name, more, rfl, hClear, rfl⟩ := findIdx?_beq_eq_some_iff_append.mp hFirst
      rw [List.append_assoc, List.cons_append] at hHolds
      exact lookAt_of_separator hHolds hClear (fun hMem => hLine (List.mem_append_left _ hMem))
        missing goOn found

/-- Whatever a lane holds: if the search succeeds, it goes on behind the lane, or the first
separator in it is found and no line feed stands before that. -/
theorem lookAt_eq_ok {ε α : Type} {chunk : List UInt8} (hHolds : lane.Holds chunk) {missing : ε}
    {goOn : Except ε α} {found : Nat → Except ε α} {a : α}
    (h : lookAt lane (.error missing) goOn found = .ok a) :
    (separator ∉ chunk ∧ lineFeed ∉ chunk ∧ goOn = .ok a) ∨
      ∃ p, chunk.findIdx? (· == separator) = some p ∧ lineFeed ∉ chunk.take p ∧
        found p = .ok a := by
  rw [lookAt, hHolds.find?, hHolds.find?] at h
  cases hFirst : chunk.findIdx? (· == separator) with
  | none =>
      cases hFeed : chunk.findIdx? (· == lineFeed) with
      | none =>
          simp only [hFirst, hFeed] at h
          exact Or.inl ⟨findIdx?_beq_eq_none_iff.mp hFirst, findIdx?_beq_eq_none_iff.mp hFeed, h⟩
      | some f =>
          simp only [hFirst, hFeed] at h
          cases h
  | some p =>
      simp only [hFirst] at h
      split at h
      · cases h
      · rename_i hLate
        refine Or.inr ⟨p, rfl, findIdx?_beq_eq_none_iff.mp ?_, h⟩
        rw [List.findIdx?_take]
        cases hFeed : chunk.findIdx? (· == lineFeed) with
        | none => rfl
        | some f => simpa [hFeed] using hLate

end Lane

/-! ### The whole scan -/

/-- What the scan makes of a line, without lanes: the first separator decides. -/
def scanLine (rows : Bytes) (start : Nat) (line : List UInt8) : Except (Halt RowError) Row :=
  match line.findIdx? (· == separator) with
  | none =>
    if line.length < keyBytes then .error (.failed (.missingSeparator start))
    else .error (.failed (.separatorTooFar start))
  | some p =>
    if keyBytes ≤ p then .error (.failed (.separatorTooFar start))
    else if longestName < p then .error (.failed (.nameTooLong p start))
    else withReading rows start { words := Key.pack (line.take p), length := p }

variable {rows : Bytes} {start : Nat} {line rest : List UInt8}

/-- The first separator of a line whose first `n` bytes have none. -/
theorem findIdx?_drop {n : Nat} (hNone : separator ∉ line.take n) (hLength : n ≤ line.length) :
    line.findIdx? (· == separator) = ((line.drop n).findIdx? (· == separator)).map (· + n) := by
  conv_lhs => rw [← List.take_append_drop n line]
  rw [List.findIdx?_append, findIdx?_beq_eq_none_iff.mpr hNone, List.length_take_of_le hLength,
    Option.none_or]

/-- The bytes behind the start of a row, counted. -/
theorem size_eq_of_drop (hText : rows.toList.drop start = line ++ lineFeed :: rest) :
    rows.size = start + line.length + 1 + rest.length := by
  have hLength := congrArg List.length hText
  simp only [List.length_drop, Array.length_toList, List.length_append, List.length_cons] at hLength
  omega

/-- The bytes behind a line and its line feed. -/
theorem drop_line_of_drop (hText : rows.toList.drop start = line ++ lineFeed :: rest) :
    rows.toList.drop (start + line.length + 1) = rest := by
  rw [Nat.add_assoc, ← List.drop_drop, hText, List.append_cons]
  exact List.drop_left' (by simp)

/-- The bytes of a line from an offset on. -/
theorem drop_add_of_drop (hText : rows.toList.drop start = line ++ lineFeed :: rest) {n : Nat}
    (hLength : n ≤ line.length) :
    rows.toList.drop (start + n) = line.drop n ++ lineFeed :: rest := by
  rw [← List.drop_drop, hText, List.drop_append_of_le_length hLength]

/-- The words of whole lanes and the words kept of the next one pack the name that ends in it. -/
theorem take_gathered {lane : Lane} {text : List UInt8} {n q : Nat} (hWhole : n % 8 = 0)
    (hLength : n + q ≤ text.length) (hHolds : lane.Holds ((text.drop n).take laneBytes))
    (hLane : q < laneBytes) :
    (Key.pack (text.take n) ++ lane.keep q).take (Word.countFor (n + q)) =
      Key.pack (text.take (n + q)) := by
  have hGathered : (text.take n).length = n := List.length_take_of_le (by omega)
  have hCount : Word.countFor (n + q) = (Key.pack (text.take n)).length + Word.countFor q := by
    rw [Key.length_pack, hGathered, Word.countFor, Word.countFor, Word.countFor]
    omega
  rw [hCount, List.take_length_add_append, hHolds.take_keep hLane.le, List.take_take,
    Nat.min_eq_left hLane.le, List.take_add, Key.pack_append (by rw [hGathered]; exact hWhole)]

/-- The line behind a whole number of lanes is what the next lane looks at. -/
theorem exists_lane (hText : rows.toList.drop start = line ++ lineFeed :: rest)
    (hSlack : slack ≤ rest.length) {n : Nat} (hLength : n ≤ line.length) :
    ∃ lane, Lane.load? rows (start + n) = some lane ∧
      lane.Holds ((line.drop n ++ lineFeed :: rest).take laneBytes) := by
  have hSize := size_eq_of_drop hText
  rw [← drop_add_of_drop hText hLength]
  apply Lane.exists_load?
  simp only [laneBytes, slack, cacheLine] at hSlack ⊢
  omega

/-- The words of whole lanes and those of the next one pack the text up to the end of it. -/
theorem pack_append_words {lane : Lane} {text : List UInt8} {n : Nat} (hWhole : n % 8 = 0)
    (hHolds : lane.Holds ((text.drop n).take laneBytes)) :
    Key.pack (text.take n) ++ lane.words = Key.pack (text.take (n + laneBytes)) := by
  have hLength : (text.take n).length = n :=
    List.length_take_of_le ((Nat.le_add_right _ _).trans hHolds.add_le)
  rw [hHolds.words, List.take_add, Key.pack_append (by rw [hLength]; exact hWhole)]

/-- What the scan makes of a line whose first separator is found in a lane behind `n` bytes. -/
theorem scanLine_of_lane (hText : rows.toList.drop start = line ++ lineFeed :: rest)
    (hSlack : slack ≤ rest.length) {lane : Lane} {n q : Nat} (hWhole : n % 8 = 0)
    (hEnd : n + laneBytes ≤ keyBytes) (hLength : n ≤ line.length) (hNone : separator ∉ line.take n)
    (hHolds : lane.Holds ((line.drop n ++ lineFeed :: rest).take laneBytes)) (hLane : q < laneBytes)
    (hFirst : (line.drop n).findIdx? (· == separator) = some q) :
    scanLine rows start line =
      if longestName < n + q then .error (.failed (.nameTooLong (n + q) start))
      else if rows.size < start + (n + q) + 1 + 8 then
        .error (.failed (.malformedMeasurement start))
      else
        withReading rows start
          { words := (Key.pack (line.take n) ++ lane.keep q).take (Word.countFor (n + q))
            length := n + q } := by
  have hIndex : q < (line.drop n).length := (List.findIdx?_eq_some_iff_getElem.mp hFirst).1
  rw [List.length_drop] at hIndex
  have hInside : n + q ≤ line.length := by omega
  have hRoom : ¬ rows.size < start + (n + q) + 1 + 8 := by
    have hSize := size_eq_of_drop hText
    simp only [slack, cacheLine] at hSlack
    omega
  have hReach : n + q ≤ (line ++ lineFeed :: rest).length := by
    rw [List.length_append]
    omega
  have hWords := take_gathered hWhole hReach
    (by rw [List.drop_append_of_le_length hLength]; exact hHolds) hLane
  rw [List.take_append_of_le_length hLength, List.take_append_of_le_length hInside] at hWords
  rw [scanLine, findIdx?_drop hNone hLength, hFirst, if_neg hRoom, hWords]
  simp only [Option.map_some, Nat.add_comm q n]
  exact if_neg (by omega)

/-- The lanes of a key follow one another and end with it. -/
theorem laneOffset_succ {left : Nat} (hLeft : left + 1 ≤ keyLanes) :
    (keyLanes - left) * laneBytes = (keyLanes - (left + 1)) * laneBytes + laneBytes ∧
      (keyLanes - left) * laneBytes ≤ keyBytes := by
  simp only [keyLanes, laneBytes, keyBytes, keyWords, laneWords] at hLeft ⊢
  omega

/-- Lanes are made of whole words. -/
theorem mul_laneBytes_mod (lanes : Nat) : lanes * laneBytes % 8 = 0 := by
  rw [laneBytes]
  omega

/-- The search from any lane on, when the lanes before it lie inside the line
and hold no separator. -/
theorem scanLong_eq (hText : rows.toList.drop start = line ++ lineFeed :: rest)
    (hLine : lineFeed ∉ line) (hSlack : slack ≤ rest.length) (left : Nat) (hLeft : left ≤ keyLanes)
    (hLength : (keyLanes - left) * laneBytes ≤ line.length)
    (hNone : separator ∉ line.take ((keyLanes - left) * laneBytes)) :
    scanLong rows start (Key.pack (line.take ((keyLanes - left) * laneBytes))) left =
      scanLine rows start line := by
  induction left with
  | zero =>
      rw [scanLong, scanLine, findIdx?_drop hNone hLength]
      cases (line.drop ((keyLanes - 0) * laneBytes)).findIdx? (· == separator) with
      | none => exact (if_neg (Nat.not_lt.mpr hLength)).symm
      | some q => exact (if_pos (Nat.le_add_left _ q)).symm
  | succ left ih =>
      obtain ⟨hNext, hEnd⟩ := laneOffset_succ hLeft
      have hWhole := mul_laneBytes_mod (keyLanes - (left + 1))
      rw [scanLong]
      rw [hNext] at ih hEnd
      generalize (keyLanes - (left + 1)) * laneBytes = n at ih hLength hNone hEnd hWhole ⊢
      obtain ⟨lane, hLoad, hHolds⟩ := exists_lane hText hSlack hLength
      have hRest : lineFeed ∉ line.drop n := fun hFeed => hLine (List.mem_of_mem_drop hFeed)
      have hDropped : (line.drop n).length = line.length - n := List.length_drop
      -- A lane without a match hands its words on; the lane behind it is the induction hypothesis.
      have hGoOn (hClear : separator ∉ (line.drop n).take laneBytes)
          (hInside : n + laneBytes ≤ line.length) :
          scanLong rows start (Key.pack (line.take n) ++ lane.words) left =
            scanLine rows start line := by
        have hLane : lane.Holds (((line ++ lineFeed :: rest).drop n).take laneBytes) := by
          rwa [List.drop_append_of_le_length hLength]
        have hWords := pack_append_words hWhole hLane
        rw [List.take_append_of_le_length hLength, List.take_append_of_le_length hInside] at hWords
        rw [hWords]
        refine ih (by omega) hInside ?_
        rw [List.take_add, List.mem_append]
        exact not_or.mpr ⟨hNone, hClear⟩
      simp only [hLoad]
      refine (lookAt_eq hHolds hRest _ _ _).trans ?_
      cases hFirst : (line.drop n).findIdx? (· == separator) with
      | none =>
          have hClear := findIdx?_beq_eq_none_iff.mp hFirst
          simp only
          split
          · rw [scanLine, findIdx?_drop hNone hLength, hFirst]
            exact (if_pos (by omega)).symm
          · exact hGoOn (fun hMem => hClear (List.mem_of_mem_take hMem)) (by omega)
      | some q =>
          have hIndex : q < (line.drop n).length := (List.findIdx?_eq_some_iff_getElem.mp hFirst).1
          simp only
          split
          · rename_i hLane
            exact (scanLine_of_lane hText hSlack hWhole hEnd hLength hNone hHolds hLane hFirst).symm
          · refine hGoOn ?_ (by omega)
            refine findIdx?_beq_eq_none_iff.mp ?_
            rw [List.findIdx?_take, hFirst]
            simp [*]

/-- The scan makes of a row what its line says, whatever stands behind the line feed. -/
theorem scan_eq (hText : rows.toList.drop start = line ++ lineFeed :: rest)
    (hLine : lineFeed ∉ line) (hSlack : slack ≤ rest.length) :
    scan rows start = scanLine rows start line := by
  obtain ⟨lane, hLoad, hHolds⟩ := exists_lane hText hSlack (Nat.zero_le line.length)
  rw [Nat.add_zero] at hLoad
  rw [List.drop_zero] at hHolds
  have hLong (hClear : separator ∉ line.take laneBytes) (hInside : laneBytes ≤ line.length) :
      scanLong rows start lane.words (keyLanes - 1) = scanLine rows start line := by
    rw [hHolds.words, List.take_append_of_le_length hInside]
    exact scanLong_eq hText hLine hSlack (keyLanes - 1) (by decide) hInside hClear
  simp only [scan, hLoad]
  refine (lookAt_eq hHolds hLine _ _ _).trans ?_
  cases hFirst : line.findIdx? (· == separator) with
  | none =>
      have hClear := findIdx?_beq_eq_none_iff.mp hFirst
      simp only
      split
      · rw [scanLine, hFirst]
        refine (if_pos ?_).symm
        simp only [laneBytes, keyBytes, keyWords, keyLanes, laneWords] at *
        omega
      · exact hLong (fun hMem => hClear (List.mem_of_mem_take hMem)) (by omega)
  | some p =>
      have hIndex : p < line.length := (List.findIdx?_eq_some_iff_getElem.mp hFirst).1
      simp only
      split
      · rename_i hLane
        have hWords := take_gathered (n := 0) rfl (by rw [List.length_append]; omega) hHolds hLane
        rw [Nat.zero_add, List.take_append_of_le_length hIndex.le] at hWords
        simp only [List.take_zero, Key.pack_nil, List.nil_append] at hWords
        have hShort : p < keyBytes ∧ p ≤ longestName := by
          simp only [laneBytes, keyBytes, keyWords, keyLanes, laneWords, longestName] at hLane ⊢
          omega
        rw [hWords, scanLine, hFirst]
        simp only
        rw [if_neg (Nat.not_le.mpr hShort.1), if_neg (Nat.not_lt.mpr hShort.2)]
      · refine hLong ?_ (by omega)
        refine findIdx?_beq_eq_none_iff.mp ?_
        rw [List.findIdx?_take, hFirst]
        simp [*]

/-! ### The rows that are scanned -/

/-- The row that a well-formed text is scanned into. -/
def ofText (text : List UInt8) (o : Observation) : Row :=
  { key := Key.packed o.name
    reading := { length := text.length - o.name.length, tenths := o.tenths } }

theorem length_ofText {text : List UInt8} {o : Observation} (h : IsRow text o) :
    (ofText text o).length = text.length + 1 := by
  cases h
  simp only [Row.length, ofText, Key.length_packed, List.length_append, List.length_cons]
  omega

/-- The word behind the separator starts with the rest of the line. -/
theorem load?_behind (hText : rows.toList.drop start = line ++ lineFeed :: rest)
    (hSlack : slack ≤ rest.length) {p : Nat} (hIndex : p < line.length) :
    Word.load? rows (start + p + 1) =
      some (Word.ofBytes ((line.drop (p + 1) ++ lineFeed :: rest).take 8)) := by
  have hSize := size_eq_of_drop hText
  have hRoom : start + p + 1 + 8 ≤ rows.size := by
    simp only [slack, cacheLine] at hSlack
    omega
  rw [Word.load?_eq, if_pos hRoom, Nat.add_assoc, drop_add_of_drop hText (by omega)]

/-- Enough bytes stand behind a line for a whole word. -/
theorem length_take_behind (hSlack : slack ≤ rest.length) (behind : List UInt8) :
    ((behind ++ lineFeed :: rest).take 8).length = 8 := by
  simp only [List.length_take, List.length_append, List.length_cons, slack, cacheLine] at hSlack ⊢
  omega

/-- A line that begins with a well-formed text is scanned into what that says. -/
theorem scan_of_isRow {text more : List UInt8} {o : Observation} (h : IsRow text o)
    (hText : rows.toList.drop start = (text ++ more) ++ lineFeed :: rest)
    (hLine : lineFeed ∉ text ++ more) (hSlack : slack ≤ rest.length) :
    scan rows start = .ok (ofText text o) := by
  rw [scan_eq hText hLine hSlack]
  cases h with
  | @mk name reading tenths hName hSeparator _ hReading =>
      have hLine :
        (name ++ separator :: reading) ++ more = name ++ separator :: (reading ++ more) := by simp
      rw [hLine] at hText ⊢
      have hBehind : (name ++ separator :: (reading ++ more)).drop (name.length + 1) =
          reading ++ more := by
        rw [List.drop_append, List.drop_of_length_le (by omega)]
        simp
      have hEight : reading.length ≤ 8 := by
        have := hReading.length
        omega
      have hTake : (reading ++ more ++ lineFeed :: rest).take 8 =
          reading ++ (more ++ lineFeed :: rest).take (8 - reading.length) := by
        rw [List.append_assoc, List.take_append, List.take_of_length_le hEight]
      have hWord := load?_behind hText hSlack (p := name.length) (by simp)
      have hRead := Measurement.ofWord?_of_isReading
        (hTake ▸ length_take_behind hSlack (reading ++ more)) hReading
      rw [scanLine, findIdx?_beq_append hSeparator]
      simp only
      rw [if_neg (Nat.not_le.mpr (hName.trans_lt longestName_lt)), if_neg (Nat.not_lt.mpr hName),
        withReading, hWord, hBehind, hTake, List.take_left]
      simp only [hRead, ofText, Key.packed, List.length_append, List.length_cons,
        Nat.add_sub_cancel_left]

/-- A line that cannot be scanned has the error that its first separator decides. -/
theorem halt_eq_of_scan (hText : rows.toList.drop start = line ++ lineFeed :: rest)
    (hLine : lineFeed ∉ line) (hSlack : slack ≤ rest.length) {halt : Halt RowError}
    (hScan : scan rows start = .error halt) :
    halt = .failed (.ofLine line start) := by
  rw [scan_eq hText hLine hSlack, scanLine] at hScan
  rw [RowError.ofLine]
  cases hFirst : line.findIdx? (· == separator) with
  | none =>
      simp only [hFirst] at hScan ⊢
      split at hScan <;> cases hScan
      · rw [if_pos ‹_›]
      · rw [if_neg ‹_›]
  | some p =>
      have hIndex : p < line.length := (List.findIdx?_eq_some_iff_getElem.mp hFirst).1
      simp only [hFirst, withReading, load?_behind hText hSlack hIndex] at hScan ⊢
      split at hScan
      · cases hScan
        rw [if_pos ‹_›]
      · rw [if_neg ‹_›]
        split at hScan
        · cases hScan
          rw [if_pos ‹_›]
        · rw [if_neg ‹_›]
          split at hScan <;> cases hScan
          rfl

/-- A row with something behind it that does not belong there fails because of its reading. -/
theorem ofLine_of_isRow {text : List UInt8} {o : Observation} (h : IsRow text o) (more : List UInt8)
    (start : Nat) :
    RowError.ofLine (text ++ more) start = .malformedMeasurement start := by
  cases h with
  | @mk name reading _ hName hSeparator =>
      rw [List.append_assoc, List.cons_append, RowError.ofLine, findIdx?_beq_append hSeparator]
      simp only
      rw [if_neg (Nat.not_le.mpr (hName.trans_lt longestName_lt)), if_neg (Nat.not_lt.mpr hName)]

/-! ### What can be scanned at all -/

/-- The first separator stands at `p`, with no line feed before it and not too far off, and the row
is what is read behind it. -/
structure EndsAt (rows : Bytes) (start : Nat) (row : Row) (p : Nat) : Prop where
  first : (rows.toList.drop start).findIdx? (· == separator) = some p
  noLineFeed : lineFeed ∉ (rows.toList.drop start).take p
  short : p ≤ longestName
  read : withReading rows start (Key.packed ((rows.toList.drop start).take p)) = .ok row

/-- The first separator in a lane is the first one of all if there is none before the lane. -/
theorem findIdx?_of_lane {text : List UInt8} {n q : Nat} (hNone : separator ∉ text.take n)
    (hLength : n ≤ text.length)
    (hFirst : ((text.drop n).take laneBytes).findIdx? (· == separator) = some q) :
    text.findIdx? (· == separator) = some (n + q) ∧ q < laneBytes := by
  rw [List.findIdx?_take, Option.bind_eq_some_iff] at hFirst
  obtain ⟨p, hFound, hInLane⟩ := hFirst
  obtain ⟨rfl, hLane⟩ := Option.guard_eq_some_iff.mp hInLane
  rw [findIdx?_drop hNone hLength, hFound]
  exact ⟨by rw [Option.map_some, Nat.add_comm], by simpa using hLane⟩

/-- The row behind a separator found in the lane at `n`, put together from the lanes before and from
what is kept of this one. -/
theorem endsAt_of_lane {lane : Lane} {n q : Nat} {row : Row} (hWhole : n % 8 = 0)
    (hSeparator : separator ∉ (rows.toList.drop start).take n)
    (hLineFeed : lineFeed ∉ (rows.toList.drop start).take n)
    (hLength : n ≤ (rows.toList.drop start).length)
    (hHolds : lane.Holds (((rows.toList.drop start).drop n).take laneBytes))
    (hFirst : (((rows.toList.drop start).drop n).take laneBytes).findIdx? (· == separator) = some q)
    (hNoLineFeed : lineFeed ∉ (((rows.toList.drop start).drop n).take laneBytes).take q)
    (hShort : n + q ≤ longestName)
    (hRead : withReading rows start
      { words := (Key.pack ((rows.toList.drop start).take n) ++ lane.keep q).take
          (Word.countFor (n + q))
        length := n + q } = .ok row) :
    EndsAt rows start row (n + q) := by
  obtain ⟨hFound, hLane⟩ := findIdx?_of_lane hSeparator hLength hFirst
  have hInside : n + q < (rows.toList.drop start).length :=
    (List.findIdx?_eq_some_iff_getElem.mp hFound).1
  rw [take_gathered hWhole hInside.le hHolds hLane] at hRead
  rw [List.take_take, Nat.min_eq_left hLane.le] at hNoLineFeed
  refine ⟨hFound, ?_, hShort, ?_⟩
  · rw [List.take_add, List.mem_append]
    exact not_or.mpr ⟨hLineFeed, hNoLineFeed⟩
  · rw [Key.packed, List.length_take_of_le hInside.le]
    exact hRead

theorem exists_endsAt_of_scanLong {row : Row} (left : Nat) (hLeft : left ≤ keyLanes)
    (hLength : (keyLanes - left) * laneBytes ≤ (rows.toList.drop start).length)
    (hSeparator : separator ∉ (rows.toList.drop start).take ((keyLanes - left) * laneBytes))
    (hLineFeed : lineFeed ∉ (rows.toList.drop start).take ((keyLanes - left) * laneBytes))
    (hScan : scanLong rows start
      (Key.pack ((rows.toList.drop start).take ((keyLanes - left) * laneBytes))) left = .ok row) :
    ∃ p, EndsAt rows start row p := by
  induction left with
  | zero => cases hScan
  | succ left ih =>
      obtain ⟨hNext, -⟩ := laneOffset_succ hLeft
      have hWhole := mul_laneBytes_mod (keyLanes - (left + 1))
      rw [scanLong] at hScan
      generalize (keyLanes - (left + 1)) * laneBytes =
        n at hLength hSeparator hLineFeed hNext hWhole hScan
      rw [hNext] at ih
      by_cases hRoom : rows.size < start + n + laneBytes
      · simp only [Lane.load?_eq_none hRoom] at hScan
        cases hScan
      obtain ⟨lane, hLoad, hHolds⟩ := Lane.exists_load? (Nat.not_lt.mp hRoom)
      rw [← List.drop_drop] at hHolds
      simp only [hLoad] at hScan
      rcases lookAt_eq_ok hHolds hScan with
        ⟨hNoSeparator, hNoLineFeed, hLater⟩ | ⟨q, hFirst, hNoLineFeed, hFound⟩
      · rw [pack_append_words hWhole hHolds] at hLater
        refine ih (by omega) hHolds.add_le ?_ ?_ hLater
        · rw [List.take_add, List.mem_append]
          exact not_or.mpr ⟨hSeparator, hNoSeparator⟩
        · rw [List.take_add, List.mem_append]
          exact not_or.mpr ⟨hLineFeed, hNoLineFeed⟩
      · split at hFound
        · cases hFound
        rename_i hShort
        split at hFound
        · cases hFound
        exact ⟨n + q, endsAt_of_lane hWhole hSeparator hLineFeed hLength hHolds hFirst hNoLineFeed
          (Nat.not_lt.mp hShort) hFound⟩

theorem exists_endsAt_of_scan {row : Row} (hScan : scan rows start = .ok row) :
    ∃ p, EndsAt rows start row p := by
  rw [scan] at hScan
  by_cases hRoom : rows.size < start + laneBytes
  · simp only [Lane.load?_eq_none hRoom] at hScan
    cases hScan
  obtain ⟨lane, hLoad, hHolds⟩ := Lane.exists_load? (Nat.not_lt.mp hRoom)
  simp only [hLoad] at hScan
  rcases lookAt_eq_ok hHolds hScan with
    ⟨hNoSeparator, hNoLineFeed, hLater⟩ | ⟨q, hFirst, hNoLineFeed, hFound⟩
  · have hLane : laneBytes ≤ (rows.toList.drop start).length := by
      rw [← hHolds.length]
      exact List.length_take_le' _ _
    rw [hHolds.words] at hLater
    exact exists_endsAt_of_scanLong (keyLanes - 1) (by decide) hLane hNoSeparator hNoLineFeed hLater
  · have hShort : 0 + q ≤ longestName := by
      have hLane := (findIdx?_of_lane (n := 0) (by simp) (Nat.zero_le _) hFirst).2
      simp only [laneBytes, longestName] at hLane ⊢
      omega
    refine ⟨0 + q, endsAt_of_lane (n := 0) rfl (by simp) (by simp) (Nat.zero_le _) hHolds hFirst
      hNoLineFeed hShort ?_⟩
    rw [List.take_zero, Key.pack_nil, List.nil_append, Nat.zero_add]
    exact hFound

/-- Wherever it starts, what is scanned is a well-formed text. -/
theorem exists_isRow_of_scan {row : Row} (hScan : scan rows start = .ok row) :
    ∃ text behind o, rows.toList.drop start = text ++ behind ∧ IsRow text o ∧
      row = ofText text o := by
  obtain ⟨p, hFirst, hNoLineFeed, hShort, hRead⟩ := exists_endsAt_of_scan hScan
  obtain ⟨name, behind, hText, hSeparator, rfl⟩ := findIdx?_beq_eq_some_iff_append.mp hFirst
  rw [hText, List.take_left] at hNoLineFeed hRead
  have hBehind : rows.toList.drop (start + name.length + 1) = behind := by
    rw [Nat.add_assoc, ← List.drop_drop, hText, List.append_cons]
    exact List.drop_left' (by simp)
  rw [withReading, Key.length_packed, Word.load?_eq] at hRead
  split at hRead
  · cases hRead
  rename_i word hWord
  split at hRead
  · cases hRead
  rename_i reading hReading
  obtain ⟨hRoom, hBytes⟩ := Option.ite_none_right_eq_some.mp hWord
  rw [← Option.some_inj.mp hBytes, hBehind] at hReading
  have hEight : (behind.take 8).length = 8 := by
    rw [← hBehind]
    simp only [List.length_take, List.length_drop, Array.length_toList]
    omega
  obtain ⟨text, more, hBytes, hTenths, hEnd⟩ :=
    (Measurement.ofWord?_eq_some_iff hEight reading).mp hReading
  cases hRead
  refine ⟨name ++ separator :: text, more ++ behind.drop 8, { name, tenths := reading.tenths }, ?_,
    .mk hShort hSeparator hNoLineFeed hTenths, ?_⟩
  · rw [hText, List.append_assoc, List.cons_append, ← List.append_assoc text, ← hBytes,
      List.take_append_drop]
  · simp only [ofText, List.length_append, List.length_cons, Nat.add_sub_cancel_left, ← hEnd]

end Row

end StationStats
