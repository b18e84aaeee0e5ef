import StationStats.Proofs.Row.Scan

/-!
The key of a scanned row is the key of its name. The bytes up to the first separator decide it,
whether they end in the first lane or in a later one; what stands behind the separator is cut off
lane by lane and never gets into a word.
-/

namespace StationStats.Row

variable {rows : Bytes} {start : Nat} {name rest : List UInt8}

/-- Where the lane ends that a name of this length ends in, the last one that is loaded for it. -/
def lanesEnd (length : Nat) : Nat := (length / laneBytes + 1) * laneBytes

theorem lanesEnd_eq {lanes length : Nat} (hStarted : lanes * laneBytes ≤ length)
    (hEnds : length < lanes * laneBytes + laneBytes) :
    lanesEnd length = lanes * laneBytes + laneBytes := by
  simp only [lanesEnd, laneBytes] at *
  omega

theorem add_le_lanesEnd {lanes length : Nat} (hStarted : lanes * laneBytes ≤ length) :
    lanes * laneBytes + laneBytes ≤ lanesEnd length := by
  simp only [lanesEnd, laneBytes] at *
  omega

/-- The search from any lane that starts inside the name. The words gathered so far are those of the
lanes before it, which lie inside the name as well. -/
theorem scanLong_of_separator (hText : rows.toList.drop start = name ++ separator :: rest)
    (hSeparator : separator ∉ name) (hLineFeed : lineFeed ∉ name)
    (hShort : name.length ≤ longestName) (left : Nat) (hLeft : left ≤ keyLanes)
    (hLength : (keyLanes - left) * laneBytes ≤ name.length) :
    scanLong rows start (Key.pack (name.take ((keyLanes - left) * laneBytes))) left =
      if rows.size < start + lanesEnd name.length then .error (.failed (.separatorTooFar start))
      else if rows.size < start + name.length + 1 + 8 then .error
        (.failed (.malformedMeasurement start))
      else withReading rows start (Key.packed name) := by
  induction left with
  | zero =>
      simp only [keyLanes, laneBytes, longestName] at hLength hShort
      omega
  | succ left ih =>
      obtain ⟨hNext, -⟩ := laneOffset_succ hLeft
      have hWhole := mul_laneBytes_mod (keyLanes - (left + 1))
      have hEnd := add_le_lanesEnd hLength
      have hHere := lanesEnd_eq hLength
      rw [scanLong]
      rw [hNext] at ih
      generalize (keyLanes - (left + 1)) * laneBytes = n at hLength hWhole hEnd hHere ih ⊢
      by_cases hRoom : rows.size < start + n + laneBytes
      · simp only [Lane.load?_eq_none hRoom]
        rw [if_pos (by omega)]
      obtain ⟨lane, hLoad, hHolds⟩ := Lane.exists_load? (Nat.not_lt.mp hRoom)
      rw [← List.drop_drop, hText] at hHolds
      have hLane := hHolds
      rw [List.drop_append_of_le_length hLength] at hLane
      have hDropped : (name.drop n).length = name.length - n := List.length_drop
      simp only [hLoad]
      refine (lookAt_of_separator hLane (fun hMem => hSeparator (List.mem_of_mem_drop hMem))
        (fun hMem => hLineFeed (List.mem_of_mem_drop hMem)) _ _ _).trans ?_
      rw [hDropped]
      split
      · rename_i hInLane
        have hSum : n + (name.length - n) = name.length := by omega
        have hWords := take_gathered (q := name.length - n) hWhole
          (by rw [List.length_append]; omega) hHolds hInLane
        rw [hSum, List.take_append_of_le_length hLength, List.take_left] at hWords
        have hLoaded : ¬ rows.size < start + lanesEnd name.length := by
          rw [hHere (by omega), ← Nat.add_assoc]
          exact hRoom
        rw [hSum, hWords, if_neg (Nat.not_lt.mpr hShort), if_neg hLoaded]
        rfl
      · have hInside : n + laneBytes ≤ name.length := by omega
        have hWords := pack_append_words hWhole hHolds
        rw [List.take_append_of_le_length hLength, List.take_append_of_le_length hInside] at hWords
        rw [hWords]
        exact ih (by omega) hInside

/-- What is scanned behind a name that ends in the first lane. -/
theorem scan_of_separator_of_lt (hText : rows.toList.drop start = name ++ separator :: rest)
    (hSeparator : separator ∉ name) (hLineFeed : lineFeed ∉ name)
    (hLane : name.length < laneBytes) :
    scan rows start =
      if rows.size < start + laneBytes then .error (.fault .outOfRange)
      else withReading rows start (Key.packed name) := by
  by_cases hRoom : rows.size < start + laneBytes
  · simp only [scan, Lane.load?_eq_none hRoom]
    rw [if_pos hRoom]
  obtain ⟨lane, hLoad, hHolds⟩ := Lane.exists_load? (Nat.not_lt.mp hRoom)
  rw [hText] at hHolds
  have hWords := take_gathered (n := 0) rfl (by rw [List.length_append]; omega) hHolds hLane
  simp only [Nat.zero_add, List.take_zero, Key.pack_nil, List.nil_append, List.take_left] at hWords
  simp only [scan, hLoad]
  refine (lookAt_of_separator hHolds hSeparator hLineFeed _ _ _).trans ?_
  rw [if_pos hLane, if_neg hRoom, hWords]
  rfl

/-- What is scanned behind a name that takes more than one lane. -/
theorem scan_of_separator_of_le (hText : rows.toList.drop start = name ++ separator :: rest)
    (hSeparator : separator ∉ name) (hLineFeed : lineFeed ∉ name)
    (hShort : name.length ≤ longestName) (hLong : laneBytes ≤ name.length) :
    scan rows start =
      if rows.size < start + laneBytes then .error (.fault .outOfRange)
      else if rows.size < start + lanesEnd name.length then .error
        (.failed (.separatorTooFar start))
      else if rows.size < start + name.length + 1 + 8 then .error
        (.failed (.malformedMeasurement start))
      else withReading rows start (Key.packed name) := by
  by_cases hRoom : rows.size < start + laneBytes
  · simp only [scan, Lane.load?_eq_none hRoom]
    rw [if_pos hRoom]
  obtain ⟨lane, hLoad, hHolds⟩ := Lane.exists_load? (Nat.not_lt.mp hRoom)
  rw [hText] at hHolds
  simp only [scan, hLoad]
  refine (lookAt_of_separator hHolds hSeparator hLineFeed _ _ _).trans ?_
  rw [if_neg (Nat.not_lt.mpr hLong), if_neg hRoom, hHolds.words,
    List.take_append_of_le_length hLong]
  exact scanLong_of_separator hText hSeparator hLineFeed hShort (keyLanes - 1) (by decide) hLong

theorem withReading_eq_ok_iff {key : Key} {row : Row} :
    withReading rows start key = .ok row ↔
      row.key = key ∧
        ∃ word, Word.load? rows (start + key.length + 1) = some word ∧
          Measurement.ofWord? word = some row.reading := by
  rw [withReading]
  cases hWord : Word.load? rows (start + key.length + 1) with
  | none => simp
  | some word =>
      cases hReading : Measurement.ofWord? word with
      | none => simp [hReading]
      | some reading =>
          cases row
          simp [hReading, eq_comm]

/-- A name that is not too long, with a separator behind it: the row is scanned if the lanes of the
name are there and a reading stands behind the separator, and its key is that of the name alone. -/
theorem scan_eq_ok_iff (hText : rows.toList.drop start = name ++ separator :: rest)
    (hSeparator : separator ∉ name) (hLineFeed : lineFeed ∉ name)
    (hShort : name.length ≤ longestName) {row : Row} :
    scan rows start = .ok row ↔
      start + lanesEnd name.length ≤ rows.size ∧
        withReading rows start (Key.packed name) = .ok row := by
  rcases Nat.lt_or_ge name.length laneBytes with hLane | hLong
  · have hEnd : lanesEnd name.length = laneBytes := by
      rw [lanesEnd, Nat.div_eq_of_lt hLane, Nat.zero_add, Nat.one_mul]
    rw [scan_of_separator_of_lt hText hSeparator hLineFeed hLane, hEnd, ← Nat.not_lt]
    split <;> simp [*]
  · have hEnd : laneBytes ≤ lanesEnd name.length := by
      rw [lanesEnd]
      exact Nat.le_mul_of_pos_left _ (Nat.succ_pos _)
    rw [scan_of_separator_of_le hText hSeparator hLineFeed hShort hLong, ← Nat.not_lt]
    split
    · rename_i hRoom
      simp [hRoom.trans_le (Nat.add_le_add_left hEnd start)]
    split
    · simp [*]
    split
    · -- Where no whole word is left behind the separator, there is no reading either way.
      rename_i hBehind
      have hNone : Word.load? rows (start + name.length + 1) = none := by
        rw [Word.load?_eq, if_neg (Nat.not_le.mpr hBehind)]
      simp [withReading, hNone]
    · simp [*]

/-- The bytes before the first separator alone decide which words and which length a row hands on:
through the first lane or through several, they are those of the packed name. Two names that fit
into a key have the same words and the same length only if they are the same, and unpacking the
words gives the name back. -/
theorem scan_packs_name :
    (∀ {rows : Bytes} {start : Nat} {name rest : List UInt8},
      rows.toList.drop start = name ++ separator :: rest → separator ∉ name → lineFeed ∉ name →
      name.length ≤ longestName →
      ∃ key, Key.ofName name = .ok key ∧ key.length = name.length ∧
        ∀ row, scan rows start = .ok row ↔
          start + (name.length / laneBytes + 1) * laneBytes ≤ rows.size ∧
            row.key.words = key.words ∧ row.key.length = name.length ∧
            ∃ word, Word.load? rows (start + name.length + 1) = some word ∧
              Measurement.ofWord? word = some row.reading) ∧
    ∀ {first second : List UInt8}, first.length ≤ keyBytes → second.length ≤ keyBytes →
      ∃ k l, Key.ofName first = .ok k ∧ Key.ofName second = .ok l ∧
        (k.words = l.words ∧ k.length = l.length ↔ first = second) ∧
        k.words.length = Word.countFor first.length ∧
        (k.words.flatMap Word.toBytes).take k.length = first := by
  constructor
  · intro rows start name rest hText hSeparator hLineFeed hShort
    refine ⟨Key.packed name, Key.ofName_eq (hShort.trans longestName_lt.le), rfl, fun row => ?_⟩
    rw [scan_eq_ok_iff hText hSeparator hLineFeed hShort, withReading_eq_ok_iff, Key.eq_packed_iff,
      Key.length_packed, Key.words_packed, and_assoc]
    rfl
  · intro first second hFirst hSecond
    refine ⟨Key.packed first, Key.packed second, Key.ofName_eq hFirst, Key.ofName_eq hSecond, ?_,
      Key.length_pack first, Key.name_packed first⟩
    rw [← Key.packed_inj]
    exact Key.eq_packed_iff.symm

/-- A name one byte longer than a lane, with a reading, a line feed and thirty more separators
behind its own: what is scanned has the words of the name. A name and the same name with a zero byte
behind it have the same words, and their lengths tell them apart. -/
theorem scan_packs_name_of_thirty_three :
    (∃ key row, Key.ofName (List.replicate 33 97) = .ok key ∧
      scan (List.replicate 33 97 ++
        separator :: ([53, 46, 50, 10] ++ List.replicate 30 separator)).toArray 0 = .ok row ∧
      row.key.words = key.words ∧ row.key.length = 33) ∧
    ∃ k l, Key.ofName [97] = .ok k ∧ Key.ofName [97, 0] = .ok l ∧
      ¬ (k.words = l.words ∧ k.length = l.length) := by
  constructor
  · obtain ⟨key, hKey, -, hScan⟩ := @scan_packs_name.1
      (List.replicate 33 97 ++
        separator :: ([53, 46, 50, 10] ++ List.replicate 30 separator)).toArray 0
      (List.replicate 33 97) ([53, 46, 50, 10] ++ List.replicate 30 separator) rfl
      (by decide) (by decide) (by decide)
    have hReading : IsReading [53, 46, 50] 52 := .unsigned (.short (by decide) (by decide))
    refine ⟨key,
      { key := { words := key.words, length := 33 }, reading := { length := 4, tenths := 52 } },
      hKey, (hScan _).mpr ⟨by decide, rfl, rfl,
        Word.ofBytes ([53, 46, 50] ++ [10, 59, 59, 59, 59]), by decide, ?_⟩, rfl, rfl⟩
    exact Measurement.ofWord?_of_isReading rfl hReading
  · obtain ⟨k, l, hFirst, hSecond, hSame, -⟩ :=
      @scan_packs_name.2 [97] [97, 0] (by decide) (by decide)
    exact ⟨k, l, hFirst, hSecond, fun h => absurd (hSame.mp h) (by decide)⟩

end StationStats.Row
