import StationStats.Bytes
import StationStats.Limits
import Mathlib.Data.List.Forall2
import Mathlib.Data.List.Induction

/-!
What a well-formed row is, said without words or lanes: the lines of a text, the shape of a line,
and the reading that a line stands for. Nothing here looks at how rows are scanned.
-/

namespace StationStats

/-- A decimal digit. -/
def IsDigit (b : UInt8) : Prop := 48 ≤ b ∧ b ≤ 57

instance (b : UInt8) : Decidable (IsDigit b) := by unfold IsDigit; infer_instance

/-- What a digit counts. -/
def digitValue (b : UInt8) : Nat := b.toNat - 48

/-- The byte between the units and the tenths of a reading. -/
def point : UInt8 := 46

/-- The byte in front of a reading below zero. -/
def minus : UInt8 := 45

/-- One or two digits, a point and one digit, with the number of tenths they stand for. -/
inductive IsMagnitude : List UInt8 → Nat → Prop where
  | short {units tenths : UInt8} (hUnits : IsDigit units) (hTenths : IsDigit tenths) :
      IsMagnitude [units, point, tenths] (10 * digitValue units + digitValue tenths)
  | long {tens units tenths : UInt8} (hTens : IsDigit tens) (hUnits : IsDigit units)
      (hTenths : IsDigit tenths) :
      IsMagnitude [tens, units, point, tenths]
        (100 * digitValue tens + 10 * digitValue units + digitValue tenths)

/-- A magnitude that may have a minus sign in front, with the tenths it stands for. -/
inductive IsReading : List UInt8 → Int → Prop where
  | unsigned {text : List UInt8} {n : Nat} (h : IsMagnitude text n) : IsReading text n
  | signed {text : List UInt8} {n : Nat} (h : IsMagnitude text n) : IsReading (minus :: text) (-n)

/-- One reading of a station, in tenths. -/
structure Observation where
  name : List UInt8
  tenths : Int
  deriving DecidableEq, Repr

/-- A well-formed line, without its line feed, and what it says: a name that is not too long and
holds neither a separator nor a line feed, the separator, and a reading. -/
inductive IsRow : List UInt8 → Observation → Prop where
  | mk {name text : List UInt8} {tenths : Int} (hLength : name.length ≤ longestName)
      (hSeparator : separator ∉ name) (hLineFeed : lineFeed ∉ name)
      (hReading : IsReading text tenths) :
      IsRow (name ++ separator :: text) { name, tenths }

/-- What stands before the first separator of a line. -/
def nameOf (line : List UInt8) : List UInt8 := line.takeWhile (· ≠ separator)

/-- The lines of a text, each without its line feed. What stands behind the last
line feed is no line. -/
def lines : List UInt8 → List (List UInt8)
  | [] => []
  | b :: rest =>
    if b = lineFeed then [] :: lines rest
    else match lines rest with
      | [] => []
      | line :: more => (b :: line) :: more

/-- Nothing stands behind the last line feed. -/
def Terminated (text : List UInt8) : Prop := ∀ b ∈ text.getLast?, b = lineFeed

instance (text : List UInt8) : Decidable (Terminated text) :=
  decidable_of_iff (text.getLast?.all (· == lineFeed) = true)
    (by simp [Terminated, Option.all_eq_true])

/-- The lines of the text are well-formed, one after the other, and say this. -/
def Reads (text : List UInt8) (observations : List Observation) : Prop :=
  List.Forall₂ IsRow (lines text) observations

/-! ### Readings -/

theorem IsDigit.digitValue_le {b : UInt8} (h : IsDigit b) : digitValue b ≤ 9 := by
  have hUpper : b.toNat ≤ 57 := UInt8.le_iff_toNat_le.mp h.2
  rw [digitValue]
  omega

theorem IsDigit.ne_of_lt {b c : UInt8} (h : IsDigit b) (hc : c < 48) : b ≠ c := by
  rintro rfl
  exact absurd h.1 (UInt8.not_le.mpr hc)

theorem IsMagnitude.le {text : List UInt8} {n : Nat} (h : IsMagnitude text n) : n ≤ 999 := by
  cases h with
  | short hUnits hTenths =>
      have := hUnits.digitValue_le
      have := hTenths.digitValue_le
      omega
  | long hTens hUnits hTenths =>
      have := hTens.digitValue_le
      have := hUnits.digitValue_le
      have := hTenths.digitValue_le
      omega

theorem IsMagnitude.length {text : List UInt8} {n : Nat} (h : IsMagnitude text n) :
    3 ≤ text.length ∧ text.length ≤ 4 := by
  cases h <;> simp

theorem IsMagnitude.lineFeed_not_mem {text : List UInt8} {n : Nat} (h : IsMagnitude text n) :
    lineFeed ∉ text := by
  have hDigit {b : UInt8} (hb : IsDigit b) : lineFeed ≠ b := (hb.ne_of_lt (by decide)).symm
  have hPoint : lineFeed ≠ point := by decide
  cases h with
  | short hUnits hTenths => simp [hDigit hUnits, hDigit hTenths, hPoint]
  | long hTens hUnits hTenths => simp [hDigit hTens, hDigit hUnits, hDigit hTenths, hPoint]

/-- A reading lies between -99.9 and 99.9. -/
theorem IsReading.natAbs_le {text : List UInt8} {tenths : Int} (h : IsReading text tenths) :
    tenths.natAbs ≤ 999 := by
  cases h with
  | unsigned h => simpa using h.le
  | signed h => simpa using h.le

theorem IsReading.length {text : List UInt8} {tenths : Int} (h : IsReading text tenths) :
    3 ≤ text.length ∧ text.length ≤ 5 := by
  cases h with
  | unsigned h =>
      have := h.length
      omega
  | signed h =>
      have := h.length
      simp only [List.length_cons]
      omega

theorem IsReading.lineFeed_not_mem {text : List UInt8} {tenths : Int} (h : IsReading text tenths) :
    lineFeed ∉ text := by
  cases h with
  | unsigned h => exact h.lineFeed_not_mem
  | signed h => simpa [lineFeed, minus] using h.lineFeed_not_mem

/-! ### Rows -/

/-- The longest name of a row fits a key with room to spare. -/
theorem longestName_lt : longestName < keyBytes := by decide

theorem IsRow.lineFeed_not_mem {line : List UInt8} {o : Observation} (h : IsRow line o) :
    lineFeed ∉ line := by
  cases h with
  | mk _ _ hLineFeed hReading =>
      have hSeparator : lineFeed ≠ separator := by decide
      simp [hLineFeed, hReading.lineFeed_not_mem, hSeparator]

/-- A well-formed row is never longer than this, its line feed included. -/
theorem IsRow.length_lt {line : List UInt8} {o : Observation} (h : IsRow line o) :
    line.length < longestName + 7 := by
  cases h with
  | mk hLength _ _ hReading =>
      have := hReading.length
      simp only [List.length_append, List.length_cons]
      omega

/-- The name ends at the first separator. -/
theorem nameOf_append {name : List UInt8} (h : separator ∉ name) (rest : List UInt8) :
    nameOf (name ++ separator :: rest) = name := by
  have hAll : ∀ b ∈ name, decide (b ≠ separator) = true := by
    intro b hb
    rw [decide_eq_true_eq]
    rintro rfl
    exact h hb
  rw [nameOf, List.takeWhile_append_of_pos hAll, List.takeWhile_cons_of_neg (by simp),
    List.append_nil]

theorem IsRow.name_eq {line : List UInt8} {o : Observation} (h : IsRow line o) :
    o.name = nameOf line := by
  cases h with
  | mk _ hSeparator => rw [nameOf_append hSeparator]

theorem IsRow.separator_mem {line : List UInt8} {o : Observation} (h : IsRow line o) :
    separator ∈ line := by
  cases h
  simp

theorem not_isRow_of_not_mem {line : List UInt8} (h : separator ∉ line) (o : Observation) :
    ¬ IsRow line o := fun hRow => h hRow.separator_mem

/-! ### Lines -/

@[simp] theorem lines_nil : lines [] = [] := rfl

/-- A text begins with its first line. -/
theorem lines_cons_line {line : List UInt8} (h : lineFeed ∉ line) (rest : List UInt8) :
    lines (line ++ lineFeed :: rest) = line :: lines rest := by
  induction line with
  | nil => simp [lines]
  | cons b line ih =>
      have hFirst : b ≠ lineFeed := fun hEq => h (by simp [hEq])
      rw [List.cons_append, lines, if_neg hFirst, ih fun hRest => h (List.mem_cons_of_mem b hRest)]

theorem lines_eq_nil {text : List UInt8} (h : lineFeed ∉ text) : lines text = [] := by
  induction text with
  | nil => rfl
  | cons b rest ih =>
      rw [List.mem_cons, not_or] at h
      rw [lines, if_neg (Ne.symm h.1), ih h.2]

/-- A text with a line feed is its first line and the rest. -/
theorem exists_line {text : List UInt8} (h : lineFeed ∈ text) :
    ∃ line rest, text = line ++ lineFeed :: rest ∧ lineFeed ∉ line := by
  obtain ⟨line, rest, hText, hLine⟩ := List.eq_append_cons_of_mem h
  exact ⟨line, rest, hText, hLine⟩

/-- What stands before the line feed of a text and has no line feed itself stands
before the first one. -/
theorem prefix_of_prefix_append {text behind rest : List UInt8} (hText : lineFeed ∉ text)
    (h : text <+: behind ++ lineFeed :: rest) : text <+: behind := by
  rcases List.prefix_or_prefix_of_prefix h (List.prefix_append behind _) with hInside | hOver
  · exact hInside
  · obtain ⟨more, rfl⟩ := hOver
    cases more with
    | nil => simp
    | cons b more =>
        have hHead : b = lineFeed := by
          have hSame := (List.prefix_append_right_inj behind).mp h
          exact (List.cons_prefix_cons.mp hSame).1
        exact absurd (by simp [hHead]) hText

theorem Terminated.mem {text : List UInt8} (h : Terminated text) (hNonempty : text ≠ []) :
    lineFeed ∈ text := by
  have hLast := List.getLast?_eq_some_getLast hNonempty
  exact h _ hLast ▸ List.getLast_mem hNonempty

theorem terminated_nil : Terminated [] := by simp [Terminated]

theorem Terminated.append {first second : List UInt8} (hFirst : Terminated first)
    (hSecond : Terminated second) :
    Terminated (first ++ second) := by
  intro b hb
  rw [List.getLast?_append, Option.mem_def, Option.or_eq_some_iff] at hb
  rcases hb with hb | ⟨-, hb⟩
  · exact hSecond b hb
  · exact hFirst b hb

/-- What stands behind a line of a terminated text is terminated. -/
theorem Terminated.of_append {first second : List UInt8} (h : Terminated (first ++ second)) :
    Terminated second := by
  intro b hb
  exact h b (by rw [List.getLast?_append, Option.mem_def, hb]; rfl)

/-- Terminated texts line by line: the induction principle that row-wise proofs follow. -/
theorem Terminated.lineInduction {motive : (text : List UInt8) → Terminated text → Prop}
    (nil : motive [] terminated_nil)
    (line : ∀ line rest (hWhole : Terminated (line ++ lineFeed :: rest)) (hRest : Terminated rest),
      lineFeed ∉ line → motive rest hRest → motive (line ++ lineFeed :: rest) hWhole)
    {text : List UInt8} (h : Terminated text) : motive text h := by
  by_cases hEmpty : text = []
  · subst hEmpty
    exact nil
  · obtain ⟨first, rest, hText, hFirst⟩ := exists_line (h.mem hEmpty)
    have hRest : Terminated rest := by
      rw [hText, List.append_cons] at h
      exact h.of_append
    have ih := hRest.lineInduction nil line
    subst hText
    exact line first rest h hRest hFirst ih
termination_by text.length
decreasing_by
  rw [hText]
  simp only [List.length_append, List.length_cons]
  omega

/-- The lines of two texts stand one after the other if the first is terminated. -/
theorem lines_append {first : List UInt8} (h : Terminated first) (second : List UInt8) :
    lines (first ++ second) = lines first ++ lines second := by
  induction h using Terminated.lineInduction with
  | nil => rfl
  | line line rest _ _ hLine ih =>
      rw [List.append_assoc, List.cons_append, lines_cons_line hLine, lines_cons_line hLine, ih,
        List.cons_append]

/-- The text of some lines, each with its line feed. -/
theorem lines_flatten {rows : List (List UInt8)} (hRows : ∀ line ∈ rows, lineFeed ∉ line) :
    Terminated (rows.map (· ++ [lineFeed])).flatten ∧
      lines (rows.map (· ++ [lineFeed])).flatten = rows := by
  induction rows with
  | nil => exact ⟨terminated_nil, rfl⟩
  | cons line rest ih =>
      rw [List.forall_mem_cons] at hRows
      obtain ⟨hTerminated, hRest⟩ := ih hRows.2
      have hLine : Terminated (line ++ [lineFeed]) := by simp [Terminated]
      rw [List.map_cons, List.flatten_cons]
      refine ⟨hLine.append hTerminated, ?_⟩
      rw [List.append_assoc, List.singleton_append, lines_cons_line hRows.1, hRest]

/-! ### Texts of well-formed rows -/

theorem reads_nil_iff {observations : List Observation} :
    Reads [] observations ↔ observations = [] := by
  simp [Reads]

theorem reads_cons_line_iff {line : List UInt8} (h : lineFeed ∉ line) {rest : List UInt8}
    {observations : List Observation} :
    Reads (line ++ lineFeed :: rest) observations ↔
      ∃ o more, IsRow line o ∧ Reads rest more ∧ observations = o :: more := by
  rw [Reads, lines_cons_line h, List.forall₂_cons_left_iff]
  rfl

/-- Each of some elements is related to another one exactly if they are so as lists. -/
theorem exists_forall₂_iff {α β : Type} {R : α → β → Prop} {first : List α} :
    (∃ second, List.Forall₂ R first second) ↔ ∀ a ∈ first, ∃ b, R a b := by
  induction first with
  | nil => simp
  | cons a rest ih =>
      rw [List.forall_mem_cons, ← ih]
      constructor
      · rintro ⟨_, hAll⟩
        cases hAll with
        | cons hFirst hRest => exact ⟨⟨_, hFirst⟩, _, hRest⟩
      · rintro ⟨⟨b, hFirst⟩, more, hRest⟩
        exact ⟨b :: more, List.Forall₂.cons hFirst hRest⟩

/-- The lines of a text say something exactly if each of them does. -/
theorem exists_reads_iff {text : List UInt8} :
    (∃ observations, Reads text observations) ↔ ∀ line ∈ lines text, ∃ o, IsRow line o :=
  exists_forall₂_iff

theorem Reads.names_eq {text : List UInt8} {observations : List Observation}
    (h : Reads text observations) :
    observations.map Observation.name = (lines text).map nameOf := by
  rw [Reads] at h
  generalize lines text = rows at h ⊢
  induction h with
  | nil => rfl
  | cons hRow _ ih => rw [List.map_cons, List.map_cons, ih, hRow.name_eq]

theorem Reads.forall_mem {text : List UInt8} {observations : List Observation}
    (h : Reads text observations) :
    ∀ o ∈ observations, o.name.length ≤ longestName ∧ o.tenths.natAbs ≤ 999 := by
  rw [Reads] at h
  generalize lines text = rows at h
  induction h with
  | nil => simp
  | cons hRow _ ih =>
      cases hRow with
      | mk hLength _ _ hReading =>
          exact List.forall_mem_cons.mpr ⟨⟨hLength, hReading.natAbs_le⟩, ih⟩

/-- The part of a row that has been seen without its end is never longer than a row. -/
theorem Reads.length_lt_of_prefix {text first : List UInt8} {observations : List Observation}
    (h : Reads text observations) (hTerminated : Terminated text) (hPrefix : first <+: text)
    (hFirst : lineFeed ∉ first) : first.length < longestName + 7 := by
  by_cases hEmpty : text = []
  · rw [hEmpty, List.prefix_nil] at hPrefix
    simp [hPrefix]
  · obtain ⟨line, rest, rfl, hLine⟩ := exists_line (hTerminated.mem hEmpty)
    obtain ⟨o, -, hRow, -, -⟩ := (reads_cons_line_iff hLine).mp h
    exact Nat.lt_of_le_of_lt (prefix_of_prefix_append hFirst hPrefix).length_le hRow.length_lt

/-- A text of well-formed rows is no longer than as many longest rows. -/
theorem Reads.length_le {text : List UInt8} {observations : List Observation}
    (h : Reads text observations) (hTerminated : Terminated text) :
    text.length ≤ (longestName + 7) * observations.length := by
  induction hTerminated using Terminated.lineInduction generalizing observations with
  | nil => exact Nat.zero_le _
  | line line rest _ _ hLine ih =>
      obtain ⟨o, more, hRow, hRest, rfl⟩ := (reads_cons_line_iff hLine).mp h
      have hFirst := hRow.length_lt
      have hOthers := ih hRest
      rw [List.length_append, List.length_cons, List.length_cons, Nat.mul_succ]
      omega

theorem reads_append_iff {first : List UInt8} (h : Terminated first) {second : List UInt8}
    {observations : List Observation} :
    Reads (first ++ second) observations ↔
      ∃ before after, Reads first before ∧ Reads second after ∧ observations = before ++ after := by
  rw [Reads, lines_append h]
  constructor
  · intro hBoth
    have hBefore := List.forall₂_take_append _ _ _ hBoth.flip
    have hAfter := List.forall₂_drop_append _ _ _ hBoth.flip
    exact ⟨_, _, hBefore.flip, hAfter.flip, (List.take_append_drop _ _).symm⟩
  · rintro ⟨before, after, hBefore, hAfter, rfl⟩
    exact List.rel_append hBefore hAfter

/-- A text is some lines and the part of a line behind them. -/
theorem exists_terminated_append (text : List UInt8) :
    ∃ first rest, text = first ++ rest ∧ Terminated first ∧ lineFeed ∉ rest := by
  induction text using List.reverseRecOn with
  | nil => exact ⟨[], [], rfl, terminated_nil, List.not_mem_nil⟩
  | append_singleton before b ih =>
      by_cases hFeed : b = lineFeed
      · exact ⟨before ++ [b], [], by simp, by simp [Terminated, hFeed], List.not_mem_nil⟩
      · obtain ⟨first, rest, rfl, hFirst, hRest⟩ := ih
        refine ⟨first, rest ++ [b], by simp, hFirst, ?_⟩
        rw [List.mem_append, List.mem_singleton, not_or]
        exact ⟨hRest, fun hEq => hFeed hEq.symm⟩

end StationStats
