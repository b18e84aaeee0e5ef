import StationStats.Proofs.Row.Rows

/-!
The first line of a text that is no row. Adding the text stops there, with everything before that
line counted, and the error names the offset of the line. Where the text is cut does not matter: in
whichever part the line stands, it is the first of that part that is no row.
-/

namespace StationStats

/-! ### Where a text fails -/

/-- In a text of lines, `line` is the first that is no row, and `before` is
what stands before it. -/
inductive FirstFailure : (text before line : List UInt8) → Prop where
  | here {line : List UInt8} (rest : List UInt8) (hLine : lineFeed ∉ line)
      (hNoRow : ∀ o, ¬ IsRow line o) :
      FirstFailure (line ++ lineFeed :: rest) [] line
  | later {row rest before line : List UInt8} {o : Observation} (hRow : IsRow row o)
      (h : FirstFailure rest before line) :
      FirstFailure (row ++ lineFeed :: rest) (row ++ lineFeed :: before) line

namespace FirstFailure

variable {text first second before line : List UInt8}

/-- The text begins with what stands before the line and the line. -/
theorem exists_eq_append (h : FirstFailure text before line) :
    ∃ rest, text = before ++ (line ++ lineFeed :: rest) := by
  induction h with
  | here rest => exact ⟨rest, rfl⟩
  | later _ _ ih =>
      obtain ⟨rest, rfl⟩ := ih
      exact ⟨rest, by simp⟩

theorem ne_nil (h : FirstFailure text before line) : text ≠ [] := by
  obtain ⟨rest, rfl⟩ := h.exists_eq_append
  simp

/-- The line at which the text fails is a line, and no row. -/
theorem no_row (h : FirstFailure text before line) : lineFeed ∉ line ∧ ∀ o, ¬ IsRow line o := by
  induction h with
  | here rest hLine hNoRow => exact ⟨hLine, hNoRow⟩
  | later _ _ ih => exact ih

/-- The lines up to the first failure are lines of the text. -/
theorem lines_sublist (h : FirstFailure text before line) :
    (lines before ++ [line]).Sublist (lines text) := by
  induction h with
  | here rest hLine =>
      rw [lines_cons_line hLine]
      exact (List.nil_sublist _).cons_cons _
  | later hRow _ ih =>
      rw [lines_cons_line hRow.lineFeed_not_mem, lines_cons_line hRow.lineFeed_not_mem]
      exact ih.cons_cons _

/-- A text of lines that are not all rows fails at one of them. -/
theorem exists_of_not_rows (hTerminated : Terminated text)
    (h : ¬ ∀ line ∈ lines text, ∃ o, IsRow line o) :
    ∃ before line, FirstFailure text before line := by
  induction hTerminated using Terminated.lineInduction with
  | nil => exact absurd (by simp) h
  | line line rest _ _ hLine ih =>
      rw [lines_cons_line hLine, List.forall_mem_cons, not_and] at h
      by_cases hRow : ∃ o, IsRow line o
      · obtain ⟨before, failing, hRest⟩ := ih (h hRow)
        obtain ⟨o, hRow⟩ := hRow
        exact ⟨_, failing, hRest.later hRow⟩
      · exact ⟨[], line, .here rest hLine (not_exists.mp hRow)⟩

/-- A text fails at its first line or behind it. -/
theorem cases_line {first rest : List UInt8}
    (h : FirstFailure (first ++ lineFeed :: rest) before line) (hFirst : lineFeed ∉ first) :
    before = [] ∧ line = first ∧ (∀ o, ¬ IsRow first o) ∨
      ∃ o later, IsRow first o ∧ FirstFailure rest later line ∧
        before = first ++ lineFeed :: later := by
  -- A text has one first line and one rest, however it is put together.
  have hInj {one rest' : List UInt8} (hOne : lineFeed ∉ one)
      (hEq : one ++ lineFeed :: rest' = first ++ lineFeed :: rest) :
      one = first ∧ rest' = rest := by
    have hLines := congrArg lines hEq
    rw [lines_cons_line hOne, lines_cons_line hFirst] at hLines
    obtain rfl := (List.cons.inj hLines).1
    exact ⟨rfl, (List.cons.inj (List.append_cancel_left hEq)).2⟩
  generalize hText : first ++ lineFeed :: rest = text at h
  cases h with
  | here rest' hLine hNoRow =>
      obtain ⟨rfl, rfl⟩ := hInj hLine hText.symm
      exact Or.inl ⟨rfl, rfl, hNoRow⟩
  | later hRow h =>
      obtain ⟨rfl, rfl⟩ := hInj hRow.lineFeed_not_mem hText.symm
      exact Or.inr ⟨_, _, hRow, h, rfl⟩

/-- A text that is cut at a line feed fails in its first part or, if all lines there
are rows, in the second. -/
theorem cases_append (hTerminated : Terminated first)
    (h : FirstFailure (first ++ second) before line) :
    FirstFailure first before line ∨
      ∃ observations later, Reads first observations ∧ FirstFailure second later line ∧
        before = first ++ later := by
  induction hTerminated using Terminated.lineInduction generalizing before with
  | nil => exact Or.inr ⟨[], before, reads_nil_iff.mpr rfl, h, rfl⟩
  | line row rest _ _ hLine ih =>
      rw [List.append_assoc, List.cons_append] at h
      rcases h.cases_line hLine with ⟨rfl, rfl, hNoRow⟩ | ⟨o, later, hRow, hBehind, rfl⟩
      · exact Or.inl (.here rest hLine hNoRow)
      · rcases ih hBehind with hFirst | ⟨observations, last, hReads, hSecond, rfl⟩
        · exact Or.inl (hFirst.later hRow)
        · exact Or.inr ⟨o :: observations, last,
            (reads_cons_line_iff hLine).mpr ⟨o, observations, hRow, hReads, rfl⟩,
            hSecond, by simp⟩

/-- Behind rows, a line that is no row is where the text fails. -/
theorem eq_of_reads {bad rest : List UInt8} {observations : List Observation}
    (hTerminated : Terminated first) (hReads : Reads first observations) (hBad : lineFeed ∉ bad)
    (hNoRow : ∀ o, ¬ IsRow bad o)
    (h : FirstFailure (first ++ (bad ++ lineFeed :: rest)) before line) :
    before = first ∧ line = bad := by
  rcases h.cases_append hTerminated with hHere | ⟨_, later, -, hLater, rfl⟩
  · have hLine := hHere.lines_sublist.subset (List.mem_append_right _ List.mem_cons_self)
    obtain ⟨o, hRow⟩ := exists_reads_iff.mp ⟨observations, hReads⟩ line hLine
    exact absurd hRow (hHere.no_row.2 o)
  · rcases hLater.cases_line hBad with ⟨rfl, rfl, -⟩ | ⟨o, _, hRow, -, -⟩
    · exact ⟨List.append_nil first, rfl⟩
    · exact absurd hRow (hNoRow o)

end FirstFailure

/-! ### What an error says -/

/-- The message names an offset: this number stands in it behind the word, with nothing
or a blank behind it. -/
def NamesOffset (message : String) (offset : Nat) : Prop :=
  ∃ before after, message = before ++ "offset " ++ toString offset ++ after ∧
    (after = "" ∨ ∃ more, after = " " ++ more)

/-- The error of a line names the offset at which the line starts. -/
theorem RowError.namesOffset_ofLine (line : List UInt8) (start : Nat) :
    NamesOffset (ofLine line start).message start := by
  have hEnd (context : String) : NamesOffset (context ++ "offset " ++ toString start) start :=
    ⟨context, "", by simp, Or.inl rfl⟩
  rw [ofLine]
  cases line.findIdx? (· == separator) with
  | none =>
      simp only
      split
      · exact hEnd "missing separator in row at "
      · exact hEnd "no separator within 128 bytes of row "
  | some p =>
      simp only
      split
      · exact hEnd "no separator within 128 bytes of row "
      · split
        · have hBefore : "station name of " ++ toString p ++ " bytes at row offset " =
              "station name of " ++ toString p ++ " bytes at row " ++ "offset " :=
            (@String.append_assoc ("station name of " ++ toString p) " bytes at row "
              "offset ").symm
          have hMessage : (nameTooLong p start).message = "station name of " ++ toString p ++
              " bytes at row offset " ++ toString start ++
                (" is longer than " ++ toString longestName) :=
            String.append_assoc
          rw [hBefore] at hMessage
          exact ⟨_, _, hMessage, Or.inr ⟨"is longer than " ++ toString longestName, rfl⟩⟩
        · exact hEnd "malformed measurement in row at "

/-! ### What is counted -/

/-- The observations that are counted of a text that fails: those of the lines before the failure,
and that of a row which the failing line begins with. -/
inductive Counted (before line : List UInt8) : List Observation → Prop where
  | mk {rows extra : List Observation} (hRows : Reads before rows)
      (hExtra : Table.Begins line extra) :
      Counted before line (rows ++ extra)

/-- The texts before the first separators of the lines that have one. -/
def namesOf (text : List UInt8) :
    List (List UInt8) := ((lines text).filter (separator ∈ ·)).map nameOf

theorem Reads.namesOf_eq {text : List UInt8} {observations : List Observation}
    (h : Reads text observations) :
    observations.map Observation.name = namesOf text := by
  have hAll : ∀ line ∈ lines text, decide (separator ∈ line) = true := by
    intro line hLine
    obtain ⟨o, hRow⟩ := exists_reads_iff.mp ⟨observations, h⟩ line hLine
    exact decide_eq_true hRow.separator_mem
  rw [h.names_eq, namesOf, List.filter_eq_self.mpr hAll]

theorem Table.Begins.names_sublist {line : List UInt8} {observations : List Observation}
    (h : Table.Begins line observations) :
    (observations.map Observation.name).Sublist (([line].filter (separator ∈ ·)).map nameOf) := by
  cases h with
  | nothing => exact List.nil_sublist _
  | @row text o hText hRow =>
      obtain ⟨more, rfl⟩ := hText
      have hSeparator : separator ∈ text ++ more := List.mem_append_left more hRow.separator_mem
      have hName : nameOf (text ++ more) = o.name := by
        cases hRow with
        | mk _ hNone => rw [List.append_assoc, List.cons_append, nameOf_append hNone]
      simp [hSeparator, hName]

namespace Counted

variable {text before line : List UInt8} {observations : List Observation}

theorem cons {row : List UInt8} {o : Observation} (hRow : IsRow row o)
    (h : Counted before line observations) :
    Counted (row ++ lineFeed :: before) line (o :: observations) := by
  obtain ⟨hRows, hExtra⟩ := h
  exact .mk ((reads_cons_line_iff hRow.lineFeed_not_mem).mpr ⟨o, _, hRow, hRows, rfl⟩) hExtra

/-- Rows of a text before this one are counted before. -/
theorem append {first : List UInt8} {others : List Observation} (hTerminated : Terminated first)
    (hFirst : Reads first others) (h : Counted before line observations) :
    Counted (first ++ before) line (others ++ observations) := by
  obtain ⟨hRows, hExtra⟩ := h
  rw [← List.append_assoc]
  exact .mk ((reads_append_iff hTerminated).mpr ⟨_, _, hFirst, hRows, rfl⟩) hExtra

theorem forall_mem (h : Counted before line observations) :
    ∀ o ∈ observations, o.name.length ≤ longestName ∧ o.tenths.natAbs ≤ 999 := by
  obtain ⟨hRows, hExtra⟩ := h
  intro o ho
  rcases List.mem_append.mp ho with ho | ho
  · exact hRows.forall_mem o ho
  · cases hExtra with
    | nothing => cases ho
    | row _ hRow =>
        obtain rfl := List.mem_singleton.mp ho
        cases hRow with
        | mk hLength _ _ hReading => exact ⟨hLength, hReading.natAbs_le⟩

/-- What is counted is counted of lines of the text, each at most once. -/
theorem names_sublist (h : Counted before line observations)
    (hFailure : FirstFailure text before line) :
    (observations.map Observation.name).Sublist (namesOf text) := by
  obtain ⟨hRows, hExtra⟩ := h
  have hLines := (hFailure.lines_sublist.filter (separator ∈ ·)).map nameOf
  rw [List.filter_append, List.map_append] at hLines
  rw [List.map_append, hRows.namesOf_eq]
  exact ((List.Sublist.refl _).append hExtra.names_sublist).trans hLines

end Counted

/-! ### Adding a text that fails -/

namespace Table

variable {rows : Bytes} {text before line : List UInt8}

/-- Adding a text that fails: the lines before the failure are added, and what is counted of the
failing line, and the error names the offset of that line. -/
theorem exists_addRowsFrom_eq (hash : KeyHash) (h : FirstFailure text before line)
    {behind : List UInt8} (hSlack : slack ≤ behind.length) {len start : Nat}
    (hText : rows.toList.drop start = text ++ behind) (hLen : start + text.length ≤ len) :
    ∃ observations, Counted before line observations ∧ ∀ t : Table hash,
      addRowsFrom rows len start t =
        failsWith (.ofLine line (start + before.length)) (observeAll observations t) := by
  have hRest (rest : List UInt8) : slack ≤ (rest ++ behind).length :=
    List.length_append ▸ hSlack.trans (Nat.le_add_left _ _)
  induction h generalizing start with
  | here rest hLine hNoRow =>
      rw [List.append_assoc, List.cons_append] at hText
      rw [List.length_append, List.length_cons] at hLen
      have hStart : start < len := by omega
      obtain ⟨extra, hExtra, hFails⟩ :=
        exists_addRowsFrom_line_eq hash hText hLine hNoRow (hRest rest) hStart
      exact ⟨extra, .mk (reads_nil_iff.mpr rfl) hExtra, hFails⟩
  | @later row rest before line o hRow _ ih =>
      rw [List.append_assoc, List.cons_append] at hText
      rw [List.length_append, List.length_cons] at hLen
      have hStart : start < len := by omega
      obtain ⟨observations, hCounted, hFails⟩ := ih (Row.drop_line_of_drop hText) (by omega)
      refine ⟨o :: observations, hCounted.cons hRow, fun t => ?_⟩
      -- The row moves the start by its length, and what stands before the failure grows by as much.
      have hOffset :
          start + row.length + 1 + before.length = start + (row ++ lineFeed :: before).length := by
        rw [List.length_append, List.length_cons]
        omega
      simp only [addRowsFrom_line_eq hText hRow (hRest rest) hStart, observeAll, ← hOffset]
      cases observe o t with
      | error fault t' => rfl
      | ok u t' => exact hFails t'

/-- A range of rows that fails, with enough bytes behind it. -/
theorem exists_addRows_eq (hash : KeyHash) {len : Nat} (hSlack : len + slack ≤ rows.size)
    (h : FirstFailure (rows.toList.take len) before line) :
    ∃ observations, Counted before line observations ∧ ∀ t : Table hash,
      addRows rows len t = failsWith (.ofLine line before.length) (observeAll observations t) := by
  have hBehind : slack ≤ (rows.toList.drop len).length := by
    rw [List.length_drop, Array.length_toList]
    omega
  have hText : rows.toList.drop 0 = rows.toList.take len ++ rows.toList.drop len := by simp
  have hLen : 0 + (rows.toList.take len).length ≤ len := by simp
  obtain ⟨observations, hCounted, hFails⟩ := exists_addRowsFrom_eq hash h hBehind hText hLen
  refine ⟨observations, hCounted, fun t => ?_⟩
  rw [addRows, if_pos hSlack, hFails, Nat.zero_add]

/-- Bytes that fail as they are completed. -/
theorem exists_addCompleted_eq (hash : KeyHash) {bytes : Bytes}
    (h : FirstFailure bytes.completed.toList before line) :
    ∃ observations, Counted before line observations ∧ ∀ t : Table hash,
      addCompleted bytes t = failsWith (.ofLine line before.length)
        (observeAll observations t) := by
  obtain ⟨hSlack, hTake⟩ := bytes.padded_spec
  rw [← hTake] at h
  exact exists_addRows_eq hash hSlack h

end Table

end StationStats
