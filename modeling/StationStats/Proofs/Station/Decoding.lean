import StationStats.Proofs.Station.Report

/-!
The way back from a report. Between the braces the entries are told apart by a comma with a blank
behind it, in an entry the last equals sign ends the name, and the readings stand between slashes.
Since a reading is made of digits, a point and a minus sign alone, a name may hold all of these
characters but the comma.
-/

namespace StationStats

namespace Tenths

/-- The number of tenths in digits, a point and one digit. -/
def unsigned? (text : List Char) : Option Nat :=
  match text.splitOn '.' with
  | [whole, [tenth]] =>
    if !whole.isEmpty && (whole ++ [tenth]).all Char.isDigit then
      some (Nat.ofDigitChars 10 (whole ++ [tenth]) 0)
    else none
  | _ => none

/-- The number of tenths in digits, a point and one digit, with or without a minus sign in front. -/
def ofChars? : List Char → Option Int
  | '-' :: text => (unsigned? text).map fun n : Nat => -(n : Int)
  | text => (unsigned? text).map Int.ofNat

theorem digits_eq_toDigits (n : Nat) : Decimal.digits n = Nat.toDigits 10 n := by
  rw [digits_eq, Nat.toString_eq_repr, Nat.toList_repr]

theorem isDigit_of_mem_digits {n : Nat} {c : Char} (h : c ∈ Decimal.digits n) : c.isDigit := by
  rw [digits_eq_toDigits] at h
  exact Nat.isDigit_of_mem_toDigits (by decide) (by decide) h

theorem digits_of_lt {n : Nat} (h : n < 10) : Decimal.digits n = [Decimal.digit n] := by
  rw [Decimal.digits, if_pos h]

/-- The digits of the whole degrees and of the tenths are those of the number of tenths. -/
theorem ofDigitChars_digits (n : Nat) :
    Nat.ofDigitChars 10 (Decimal.digits (n / 10) ++ [Decimal.digit (n % 10)]) 0 = n := by
  have hTenth : n % 10 < 10 := Nat.mod_lt n (by decide)
  rw [Nat.ofDigitChars_append, digits_eq_toDigits, Nat.ofDigitChars_ten_toDigits, digit_eq hTenth,
    Nat.ofDigitChars_cons_digitChar_of_lt_ten hTenth, Nat.ofDigitChars_nil]
  exact Nat.div_add_mod n 10

theorem chars_of_neg {n : Int} (h : n < 0) : chars n = '-' :: chars (-n) := by
  rw [chars, chars, if_pos h, if_neg (by omega), Int.natAbs_neg, List.nil_append,
    List.singleton_append, List.cons_append]

theorem chars_of_nonneg {n : Int} (h : 0 ≤ n) :
    chars n = Decimal.digits (n.natAbs / 10) ++ ['.', Decimal.digit (n.natAbs % 10)] := by
  rw [chars, if_neg (Int.not_lt.mpr h), List.nil_append]

/-- A value that is not negative is read back. -/
theorem unsigned?_chars {n : Int} (h : 0 ≤ n) : unsigned? (chars n) = some n.natAbs := by
  have hTenth : Decimal.digits (n.natAbs % 10) = [Decimal.digit (n.natAbs % 10)] :=
    digits_of_lt (Nat.mod_lt _ (by decide))
  have hNoPoint (k : Nat) : '.' ∉ Decimal.digits k :=
    fun hMem => absurd (isDigit_of_mem_digits hMem) (by decide)
  have hSplit :
      (chars n).splitOn '.' =
        [Decimal.digits (n.natAbs / 10), [Decimal.digit (n.natAbs % 10)]] := by
    rw [chars_of_nonneg h, List.splitOn_append_cons_self_of_not_mem (hNoPoint _), ← hTenth,
      List.splitOn_eq_singleton (hNoPoint _)]
  have hDigits :
      (Decimal.digits (n.natAbs / 10) ++ [Decimal.digit (n.natAbs % 10)]).all Char.isDigit =
        true := by
    rw [List.all_eq_true]
    intro c hc
    rw [← hTenth, List.mem_append] at hc
    exact hc.elim isDigit_of_mem_digits isDigit_of_mem_digits
  have hSome : (Decimal.digits (n.natAbs / 10)).isEmpty = false := by
    rw [List.isEmpty_eq_false_iff, digits_eq_toDigits]
    exact Nat.toDigits_ne_nil
  rw [unsigned?, hSplit]
  simp only [hSome, hDigits, Bool.not_false, Bool.and_self, if_true, ofDigitChars_digits]

/-- The first of the digits is a zero only for zero itself. -/
theorem exists_digits_eq_cons (n : Nat) :
    ∃ c rest, Decimal.digits n = c :: rest ∧ c.isDigit ∧ (c = '0' → n = 0) := by
  induction n using Nat.strongRecOn with
  | ind n ih =>
      by_cases hOne : n < 10
      · have hZero : ∀ n < 10, Decimal.digit n = '0' → n = 0 := by decide
        have hDigits := digits_of_lt hOne
        exact ⟨_, [], hDigits, isDigit_of_mem_digits (hDigits ▸ List.mem_cons_self), hZero n hOne⟩
      · obtain ⟨c, rest, hDigits, hDigit, hZero⟩ := ih (n / 10) (by omega)
        refine ⟨c, rest ++ [Decimal.digit (n % 10)], ?_, hDigit, fun hFirst => ?_⟩
        · rw [Decimal.digits, if_neg hOne, hDigits, List.cons_append]
        · have hNone := hZero hFirst
          omega

/-- A value that is not negative is written with a digit first. If that is a zero,
the point comes next. -/
theorem exists_chars_eq_cons {n : Int} (h : 0 ≤ n) :
    ∃ c rest, chars n = c :: rest ∧ c.isDigit ∧ (c = '0' → ∃ tenth, rest = ['.', tenth]) := by
  obtain ⟨c, rest, hDigits, hDigit, hZero⟩ := exists_digits_eq_cons (n.natAbs / 10)
  refine ⟨c, rest ++ ['.', Decimal.digit (n.natAbs % 10)], ?_, hDigit,
    fun hFirst => ⟨Decimal.digit (n.natAbs % 10), ?_⟩⟩
  · rw [chars_of_nonneg h, hDigits, List.cons_append]
  · rw [hZero hFirst, digits_of_lt (by decide), List.cons.injEq] at hDigits
    rw [← hDigits.2, List.nil_append]

/-- Only a negative value is written with a sign. -/
theorem nonneg_of_isDigit {n : Int} {c : Char} {rest : List Char} (hText : chars n = c :: rest)
    (hDigit : c.isDigit) :
    0 ≤ n := by
  by_contra hNegative
  rw [chars_of_neg (Int.not_le.mp hNegative), List.cons.injEq] at hText
  rw [← hText.1] at hDigit
  exact absurd hDigit (by decide)

theorem neg_of_sign {n : Int} {rest : List Char} (hText : chars n = '-' :: rest) : n < 0 := by
  by_contra hNonneg
  obtain ⟨c, _, hChars, hDigit, -⟩ := exists_chars_eq_cons (Int.not_lt.mp hNonneg)
  rw [hChars, List.cons.injEq] at hText
  rw [hText.1] at hDigit
  exact absurd hDigit (by decide)

/-- A value in tenths is read back. -/
theorem ofChars?_chars (n : Int) : ofChars? (chars n) = some n := by
  rcases lt_or_ge n 0 with hNegative | hNonneg
  · have hBack : -((-n).natAbs : Int) = n := by omega
    rw [chars_of_neg hNegative, ofChars?, unsigned?_chars (by omega), Option.map_some, hBack]
  · have hBack : Int.ofNat n.natAbs = n := Int.natAbs_of_nonneg hNonneg
    rw [ofChars?, unsigned?_chars hNonneg, Option.map_some, hBack]
    intro text hText
    exact absurd (neg_of_sign hText) (Int.not_lt.mpr hNonneg)

/-- Different values are written differently. -/
theorem chars_inj {m n : Int} : chars m = chars n ↔ m = n := by
  constructor
  · intro h
    rw [← Option.some_inj, ← ofChars?_chars m, h, ofChars?_chars]
  · exact congrArg chars

/-- All that a value in tenths is written with. -/
theorem cases_of_mem_chars {n : Int} {c : Char} (h : c ∈ chars n) :
    c = '-' ∨ c = '.' ∨ c.isDigit := by
  rw [chars, List.mem_append, List.mem_append, List.mem_cons, List.mem_singleton] at h
  rcases h with (hSign | hWhole) | hPoint | hTenth
  · split at hSign
    · exact Or.inl (List.mem_singleton.mp hSign)
    · cases hSign
  · exact Or.inr (Or.inr (isDigit_of_mem_digits hWhole))
  · exact Or.inr (Or.inl hPoint)
  · refine Or.inr (Or.inr (isDigit_of_mem_digits (n := n.natAbs % 10) ?_))
    rw [digits_of_lt (Nat.mod_lt _ (by decide))]
    exact List.mem_singleton.mpr hTenth

theorem not_mem_chars {c : Char} (hSign : c ≠ '-') (hPoint : c ≠ '.') (hDigit : ¬ c.isDigit)
    (n : Int) :
    c ∉ chars n := by
  intro hMem
  rcases cases_of_mem_chars hMem with h | h | h
  · exact hSign h
  · exact hPoint h
  · exact hDigit h

theorem chars_zero : chars 0 = ['0', '.', '0'] := by
  rw [chars_of_nonneg le_rfl, digits_of_lt (by decide)]
  rfl

/-- Zero has no sign. -/
theorem chars_ne_minus_zero (n : Int) : chars n ≠ ['-', '0', '.', '0'] := by
  intro hText
  have hNegative := neg_of_sign hText
  rw [chars_of_neg hNegative, List.cons.injEq, ← chars_zero, chars_inj] at hText
  omega

/-- No digit before the point follows a zero at the start. -/
theorem not_isDigit_of_chars_eq {n : Int} {sign rest : List Char} {c : Char} (hSign : sign = [] ∨
    sign = ['-']) (hText : chars n = sign ++ '0' :: c :: rest) : ¬ c.isDigit := by
  -- Without the sign a value that is not negative is left.
  obtain ⟨m, hNonneg, hDigits⟩ : ∃ m : Int, 0 ≤ m ∧ chars m = '0' :: c :: rest := by
    rcases hSign with rfl | rfl
    · exact ⟨n, nonneg_of_isDigit hText (by decide), hText⟩
    · have hNegative := neg_of_sign hText
      rw [chars_of_neg hNegative] at hText
      exact ⟨-n, by omega, (List.cons.inj hText).2⟩
  obtain ⟨first, more, hChars, -, hZero⟩ := exists_chars_eq_cons hNonneg
  rw [hChars, List.cons.injEq] at hDigits
  obtain ⟨tenth, rfl⟩ := hZero hDigits.1
  rw [List.cons.injEq] at hDigits
  rw [← hDigits.2.1]
  decide

end Tenths

theorem Utf8.mem_encode {chars : List Char} {c : Char} {b : UInt8}
    (hb : b ∈ String.utf8EncodeChar c) (hc : c ∈ chars) :
    b ∈ Utf8.encode chars :=
  List.mem_flatMap.mpr ⟨c, hc, hb⟩

/-- The text of an aggregate has its readings apart from each other. -/
theorem Aggregate.chars_ok_iff {a : Aggregate} {readings : List Char} :
    a.chars = .ok readings ↔ ∃ mean, a.mean = .ok mean ∧
      readings = Tenths.chars a.least ++
        '/' :: (Tenths.chars mean ++ '/' :: Tenths.chars a.greatest) := by
  rw [chars]
  cases a.mean with
  | error fault => simp [Bind.bind, Except.bind]
  | ok mean => simp [Bind.bind, Except.bind, Pure.pure, Except.pure, eq_comm]

namespace Report

/-- The byte of a comma. -/
def comma : UInt8 := 44

/-- What a report says of one station. -/
structure Line where
  name : List UInt8
  least : Int
  mean : Int
  greatest : Int
  deriving DecidableEq

/-- The parts of a text between the places where a blank follows a comma. -/
def splitEntries : List Char → List (List Char)
  | [] => [[]]
  | ',' :: ' ' :: rest => [] :: splitEntries rest
  | c :: rest => (splitEntries rest).modifyHead (c :: ·)

/-- What stands before and behind the last equals sign. -/
def cutName? : List Char → Option (List Char × List Char)
  | [] => none
  | c :: rest =>
    match cutName? rest with
    | some (name, readings) => some (c :: name, readings)
    | none => if c = '=' then some ([], rest) else none

/-- The three numbers between slashes. -/
def readings? (text : List Char) : Option (Int × Int × Int) :=
  match text.splitOn '/' with
  | [least, mean, greatest] =>
      do return (← Tenths.ofChars? least, ← Tenths.ofChars? mean, ← Tenths.ofChars? greatest)
  | _ => none

/-- What one entry says. -/
def line? (entry : List Char) : Option Line := do
  let (name, text) ← cutName? entry
  let (least, mean, greatest) ← readings? text
  return { name := Utf8.encode name, least, mean, greatest }

/-- What a report says of its stations, in the order in which it shows them. -/
def read? (report : String) : Option (List Line) :=
  match report.toList with
  | '\x7b' :: text => do
    let inner ← text.dropSuffix? ['\x7d', '\n']
    if inner = [] then return [] else (splitEntries inner).mapM line?
  | _ => none

/-- The line has the name of the station and the numbers of its aggregate. -/
structure Says (station : Station) (line : Line) : Prop where
  name : line.name = station.name
  least : line.least = station.aggregate.least
  mean : station.aggregate.mean = .ok line.mean
  greatest : line.greatest = station.aggregate.greatest

theorem rightUnique_says : Relator.RightUnique Says := by
  intro station first second hFirst hSecond
  obtain ⟨hName, hLeast, hMean, hGreatest⟩ := hFirst
  rw [← hSecond.name] at hName
  rw [← hSecond.least] at hLeast
  rw [hSecond.mean] at hMean
  rw [← hSecond.greatest] at hGreatest
  cases first
  cases second
  rw [Line.mk.injEq]
  exact ⟨hName, hLeast, (Except.ok.inj hMean).symm, hGreatest⟩

/-! ### Entries -/

/-- A character that is no comma belongs to the first entry. -/
theorem splitEntries_cons {c : Char} (h : ',' ≠ c) (rest : List Char) :
    splitEntries (c :: rest) = (splitEntries rest).modifyHead (c :: ·) := by
  rw [splitEntries]
  rintro _ rfl
  exact absurd rfl h

/-- Up to the first comma nothing is split. -/
theorem splitEntries_append {entry : List Char} (h : ',' ∉ entry) (rest : List Char) :
    splitEntries (entry ++ ',' :: ' ' :: rest) = entry :: splitEntries rest := by
  induction entry with
  | nil => rw [List.nil_append, splitEntries]
  | cons c entry ih =>
      rw [List.mem_cons, not_or] at h
      rw [List.cons_append, splitEntries_cons h.1, ih h.2, List.modifyHead_cons]

theorem splitEntries_eq_singleton {entry : List Char} (h : ',' ∉ entry) :
    splitEntries entry = [entry] := by
  induction entry with
  | nil => rw [splitEntries]
  | cons c entry ih =>
      rw [List.mem_cons, not_or] at h
      rw [splitEntries_cons h.1, ih h.2, List.modifyHead_cons]

/-- Entries without commas are told apart again. -/
theorem splitEntries_intercalate {shown : List (List Char)} (h : ∀ entry ∈ shown, ',' ∉ entry)
    (hSome : shown ≠ []) :
    splitEntries (List.intercalate [',', ' '] shown) = shown := by
  induction shown with
  | nil => exact absurd rfl hSome
  | cons entry rest ih =>
      rw [List.forall_mem_cons] at h
      cases rest with
      | nil => rw [List.intercalate_singleton, splitEntries_eq_singleton h.1]
      | cons next more =>
          rw [List.intercalate_cons_cons, List.append_assoc, List.cons_append,
            List.singleton_append, splitEntries_append h.1, ih h.2 (List.cons_ne_nil _ _)]

theorem cutName?_eq_none {text : List Char} (h : '=' ∉ text) : cutName? text = none := by
  induction text with
  | nil => rfl
  | cons c rest ih =>
      rw [List.mem_cons, not_or] at h
      rw [cutName?, ih h.2]
      exact if_neg (Ne.symm h.1)

/-- The name may hold equals signs of its own. -/
theorem cutName?_append {readings : List Char} (h : '=' ∉ readings) (name : List Char) :
    cutName? (name ++ '=' :: readings) = some (name, readings) := by
  induction name with
  | nil =>
      rw [List.nil_append, cutName?, cutName?_eq_none h]
      rfl
  | cons c name ih => rw [List.cons_append, cutName?, ih]

/-- What is written of an aggregate has no comma and no equals sign in it. -/
theorem not_mem_readings {a : Aggregate} {readings : List Char} (h : a.chars = .ok readings)
    {c : Char} (hSign : c ≠ '-') (hPoint : c ≠ '.') (hSlash : c ≠ '/') (hDigit : ¬ c.isDigit) :
    c ∉ readings := by
  obtain ⟨mean, -, rfl⟩ := Aggregate.chars_ok_iff.mp h
  have hNumber := Tenths.not_mem_chars hSign hPoint hDigit
  simp only [List.mem_append, List.mem_cons, not_or]
  exact ⟨hNumber _, hSlash, hNumber _, hSlash, hNumber _⟩

theorem readings?_chars {a : Aggregate} {readings : List Char} (h : a.chars = .ok readings) :
    ∃ mean, a.mean = .ok mean ∧ readings? readings = some (a.least, mean, a.greatest) := by
  obtain ⟨mean, hMean, rfl⟩ := Aggregate.chars_ok_iff.mp h
  have hSlash : ∀ n, '/' ∉ Tenths.chars n :=
    Tenths.not_mem_chars (by decide) (by decide) (by decide)
  refine ⟨mean, hMean, ?_⟩
  rw [readings?, List.splitOn_append_cons_self_of_not_mem (hSlash _),
    List.splitOn_append_cons_self_of_not_mem (hSlash _), List.splitOn_eq_singleton (hSlash _)]
  simp only [Tenths.ofChars?_chars]
  rfl

/-- The entry of a station is read back. -/
theorem exists_line? {station : Station} {entry : List Char} (h : entryChars station = .ok entry)
    (hName : comma ∉ station.name) :
    ',' ∉ entry ∧ ∃ line, line? entry = some line ∧ Says station line := by
  obtain ⟨name, readings, hDecoded, hReadings, rfl⟩ := entryChars_ok_iff.mp h
  have hEncoded := Utf8.decode_ok_iff.mp hDecoded
  constructor
  · rw [List.mem_append, List.mem_cons, not_or, not_or]
    refine ⟨fun hMem => hName ?_, by decide,
      not_mem_readings hReadings (by decide) (by decide) (by decide) (by decide)⟩
    rw [← hEncoded]
    exact Utf8.mem_encode (by decide) hMem
  · have hEquals :=
      not_mem_readings hReadings (c := '=') (by decide) (by decide) (by decide) (by decide)
    obtain ⟨mean, hMean, hRead⟩ := readings?_chars hReadings
    refine ⟨⟨Utf8.encode name, station.aggregate.least, mean, station.aggregate.greatest⟩, ?_,
      hEncoded, rfl, hMean, rfl⟩
    rw [line?, cutName?_append hEquals]
    simp [hRead]

/-! ### Reports -/

theorem exists_mapM_line? {stations : List Station} {shown : List (List Char)}
    (h : entries stations = .ok shown) (hNames : ∀ station ∈ stations, comma ∉ station.name) :
    (∀ entry ∈ shown, ',' ∉ entry) ∧ ∃ lines, shown.mapM line? = some lines ∧
      List.Forall₂ Says stations lines := by
  induction stations generalizing shown with
  | nil =>
      cases h
      exact ⟨by simp, [], rfl, .nil⟩
  | cons station rest ih =>
      obtain ⟨entry, more, hEntry, hMore, rfl⟩ := entries_cons_ok_iff.mp h
      rw [List.forall_mem_cons] at hNames
      obtain ⟨hComma, line, hLine, hSays⟩ := exists_line? hEntry hNames.1
      obtain ⟨hCommas, lines, hLines, hAll⟩ := ih hMore hNames.2
      refine ⟨List.forall_mem_cons.mpr ⟨hComma, hCommas⟩, line :: lines, ?_, .cons hSays hAll⟩
      rw [List.mapM_cons, hLine, hLines]
      rfl

/-- The report on a listing is read back. -/
theorem exists_read? {stations : List Station} {report : String}
    (h : chars stations = .ok report.toList) (hNames : ∀ station ∈ stations, comma ∉ station.name) :
    ∃ lines, read? report = some lines ∧ List.Forall₂ Says (sorted stations) lines := by
  rw [chars] at h
  cases hShown : entries (sorted stations) with
  | error halt =>
      rw [hShown] at h
      cases h
  | ok shown =>
      rw [hShown, Except.map, Except.ok.injEq] at h
      obtain ⟨hCommas, lines, hLines, hSays⟩ := exists_mapM_line? hShown
        fun station hStation => hNames station ((sorted_perm stations).mem_iff.mp hStation)
      have hInner :
          (List.intercalate [',', ' '] shown ++ ['\x7d', '\n']).dropSuffix? ['\x7d', '\n'] =
          some (List.intercalate [',', ' '] shown) :=
        List.dropSuffix?_eq_some_iff.mpr ⟨_, rfl, by decide⟩
      refine ⟨lines, ?_, hSays⟩
      rw [read?, ← h]
      simp only [hInner, Option.bind_eq_bind, Option.bind_some]
      by_cases hSome : shown = []
      · subst hSome
        exact hLines
      · have hSplit := splitEntries_intercalate hCommas hSome
        -- Nothing between the braces would be one entry without a name.
        have hNonempty : List.intercalate [',', ' '] shown ≠ [] := by
          intro hEmpty
          rw [hEmpty] at hSplit
          rw [← hSplit] at hLines
          cases hLines
        rw [if_neg hNonempty, hSplit, hLines]

theorem names_of_says {stations : List Station} {lines : List Line}
    (h : List.Forall₂ Says stations lines) :
    lines.map Line.name = Listing.names stations := by
  induction h with
  | nil => rfl
  | cons hSays _ ih =>
      rw [List.map_cons, hSays.name, ih, Listing.names, Listing.names, List.map_cons]

theorem exists_line_of_says {stations : List Station} {lines : List Line}
    (h : List.Forall₂ Says stations lines) {station : Station} (hStation : station ∈ stations) :
    ∃ line ∈ lines, Says station line := by
  induction h with
  | nil => cases hStation
  | cons hSays _ ih =>
      rcases List.mem_cons.mp hStation with rfl | hRest
      · exact ⟨_, List.mem_cons_self, hSays⟩
      · obtain ⟨line, hLine, hFound⟩ := ih hRest
        exact ⟨line, List.mem_cons_of_mem _ hLine, hFound⟩

/-- Stations of the same name that the same lines tell of have the same readings. -/
theorem says_unique {stations others : List Station} {lines : List Line}
    (h : List.Forall₂ Says stations lines) (hOthers : List.Forall₂ Says others lines)
    (hDistinct : (Listing.names stations).Nodup) {name : List UInt8} {a b : Aggregate}
    (hStation : { name, aggregate := a } ∈ stations) (hOther : { name, aggregate := b } ∈ others) :
    a.least = b.least ∧ a.mean = b.mean ∧ a.greatest = b.greatest := by
  obtain ⟨line, hLine, hSays⟩ := exists_line_of_says h hStation
  obtain ⟨same, hSame, hSays'⟩ := exists_line_of_says hOthers hOther
  rw [← names_of_says h] at hDistinct
  obtain rfl := List.inj_on_of_nodup_map hDistinct hLine hSame (hSays.name.trans hSays'.name.symm)
  exact ⟨hSays.least.symm.trans hSays'.least, hSays.mean.trans hSays'.mean.symm,
    hSays.greatest.symm.trans hSays'.greatest⟩

end Report

end StationStats
