import StationStats.Proofs.File.Observed
import StationStats.Proofs.Station.Decoding

/-!
The report on a table that came about in any way. It fails only for a station name that is no text,
and apart from what the table says of each name nothing shows in it: not the hash, the size, the
order of the stations, or how they came into the table.
-/

namespace StationStats.Table

variable {hash : KeyHash} {n : Int} {t : Table hash}

theorem ReachedWith.countable (h : ReachedWith n t) (hFew : n < 2 ^ 31) :
    Report.Countable t.stations where
  credible _ hStation := (h.bounded_of_mem hStation).1.credible
  count_lt _ hStation := (h.bounded_of_mem hStation).2.trans_lt hFew

/-- A table of the last size but two or a smaller one that came about is in good order. -/
theorem ReachedWith.regular_of_capacity (h : ReachedWith n t) (hCapacity : t.capacity ≤ 142069021) :
    Regular t :=
  h.reached.regular_of_capacity (hCapacity.trans (by decide))

/-- The report on a table that came about from fewer than 2³¹ observations and is not larger than
the last size but two. There is one exactly if all names are texts, and then it lists each station
once, in strictly ascending byte order. Otherwise the error is about the least name that is no text.
Whatever says the same of every name has the same report. -/
theorem ReachedWith.report_lists (h : ReachedWith n t) (hFew : n < 2 ^ 31)
    (hCapacity : t.capacity ≤ 142069021) :
    ((∃ text, t.report = .ok text) ↔ ∀ name ∈ t.names, name.toByteArray.IsValidUTF8) ∧
    (t.names.Nodup ∧ ∀ text, t.report = .ok text ↔ Report.Lists t.stations text) ∧
    (∀ halt, t.report = .error halt → ∃ name ∈ t.names, ∃ cause, halt = .failed ⟨name, cause⟩ ∧
      Utf8.decode name = .error cause ∧ ¬ name.toByteArray.IsValidUTF8 ∧
        ∀ other ∈ t.names, ¬ other.toByteArray.IsValidUTF8 → name ≤ other) ∧
    ∀ {otherHash : KeyHash} {m : Int} {other : Table otherHash}, ReachedWith m other → m < 2 ^ 31 →
      other.capacity ≤ 142069021 → (∀ name, t.get? name = other.get? name) →
        t.report = other.report := by
  have hRegular := h.regular_of_capacity hCapacity
  have hCountable := h.countable hFew
  have hLists (text : String) : t.report = .ok text ↔ Report.Lists t.stations text :=
    report_ok_iff.trans (hCountable.chars_ok_iff_lists hRegular.distinct)
  have hError (halt : Halt NameError) (hFailed : t.report = .error halt) :
      ∃ name ∈ t.names, ∃ cause, halt = .failed ⟨name, cause⟩ ∧ Utf8.decode name = .error cause ∧
        ¬ name.toByteArray.IsValidUTF8 ∧ ∀ other ∈ t.names, ¬ other.toByteArray.IsValidUTF8 →
          name ≤ other := by
    obtain ⟨name, hName, cause, hDecoded, hHalt, hLeast⟩ :=
      hCountable.chars_error hRegular.distinct (report_error_iff.mp hFailed)
    refine ⟨name, hName, cause, hHalt, hDecoded, fun hValid => ?_, hLeast⟩
    obtain ⟨chars, hText⟩ := Utf8.isValidUTF8_iff.mp hValid
    cases hText.symm.trans hDecoded
  refine ⟨⟨?_, fun hTexts => ?_⟩, ⟨hRegular.distinct, hLists⟩, hError, ?_⟩
  · rintro ⟨text, hReport⟩
    exact ((hLists text).mp hReport).isValidUTF8
  · cases hReport : t.report with
    | ok text => exact ⟨text, rfl⟩
    | error halt =>
        obtain ⟨name, hName, -, -, -, hBad, -⟩ := hError halt hReport
        exact absurd (hTexts name hName) hBad
  · intro otherHash m other hOther hOtherFew hOtherCapacity hSame
    have hPerm :=
      (hRegular.get?_eq_iff_perm (hOther.regular_of_capacity hOtherCapacity).toValid).mp hSame
    exact report_eq_of_perm hPerm hRegular.distinct

/-- Two stations that came in different orders into tables of different sizes and hashes. The name
of one is the byte 255, which no text has. -/
theorem report_lists_name_of_byte_255 :
    ∃ (t : Table KeyHash.fnv1a) (other : Table KeyHash.primeMultiply),
      t.capacity = 9 ∧ other.capacity = 23 ∧
      t.names = [[97], [255]] ∧ other.names = [[255], [97]] ∧ t.report = other.report ∧
      t.report = .error (.failed ⟨[255], .invalid 1 0⟩) := by
  have hRow : IsRow ([255] ++ separator :: [50, point, 53]) ⟨[255], 25⟩ :=
    .mk (by decide) (by decide) (by decide) (.unsigned (.short (by decide) (by decide)))
  have hReads : Reads [97, 59, 49, 46, 48, 10, 255, 59, 50, 46, 53, 10] [⟨[97], 10⟩, ⟨[255], 25⟩] :=
    List.Forall₂.cons isRow_one_byte (.cons hRow .nil)
  have hReads' :
      Reads [255, 59, 50, 46, 53, 10, 97, 59, 49, 46, 48, 10] [⟨[255], 25⟩, ⟨[97], 10⟩] :=
    List.Forall₂.cons hRow (.cons isRow_one_byte .nil)
  obtain ⟨t, hReached, hStations, hSize⟩ := exists_reachedWith_of_reads
    (show (withCapacity 9 : Except Fault (Table KeyHash.fnv1a)) =
      .ok (ofSize ⟨9, 0x38e38e39, 1⟩) from rfl)
    (by decide) (by decide) hReads (roomFor_ofSize (by decide) (by decide))
  obtain ⟨other, hOther, hStations', hSize'⟩ := exists_reachedWith_of_reads
    (show (withCapacity 10 : Except Fault (Table KeyHash.primeMultiply)) =
      .ok (ofSize ⟨23, 0xb21642c9, 4⟩) from rfl)
    (by decide) (by decide) hReads' (roomFor_ofSize (by decide) (by decide))
  have hCapacity : t.capacity = 9 := by rw [capacity, hSize]; rfl
  have hCapacity' : other.capacity = 23 := by rw [capacity, hSize']; rfl
  have hNames : t.names = [[97], [255]] := by rw [names, hStations]; rfl
  have hNames' : other.names = [[255], [97]] := by rw [names, hStations']; rfl
  have hSmall : t.capacity ≤ 142069021 := by rw [hCapacity]; decide
  have hSmall' : other.capacity ≤ 142069021 := by rw [hCapacity']; decide
  have hSame : ∀ name, t.get? name = other.get? name := by
    rw [(hReached.regular_of_capacity hSmall).get?_eq_iff_perm
      (hOther.regular_of_capacity hSmall').toValid, hStations, hStations']
    decide
  obtain ⟨hTexts, -, hError, hAgree⟩ := hReached.report_lists (by decide) hSmall
  refine ⟨t, other, hCapacity, hCapacity', hNames, hNames', hAgree hOther (by decide) hSmall' hSame,
    ?_⟩
  have hBad : Utf8.decode [255] = .error (.invalid 1 0) := rfl
  have hGood : Utf8.decode [97] = .ok ['a'] := rfl
  cases hReport : t.report with
  | ok text =>
      obtain ⟨chars, hChars⟩ :=
        Utf8.isValidUTF8_iff.mp (hTexts.mp ⟨text, hReport⟩ [255] (by simp [hNames]))
      cases hBad.symm.trans hChars
  | error halt =>
      obtain ⟨name, hName, cause, rfl, hDecoded, -⟩ := hError halt hReport
      rw [hNames, List.mem_cons, List.mem_singleton] at hName
      rcases hName with rfl | rfl
      · cases hGood.symm.trans hDecoded
      · cases hBad.symm.trans hDecoded
        rfl

/-! ### Reading a report back -/

theorem ReachedWith.exists_report (h : ReachedWith n t) (hFew : n < 2 ^ 31)
    (hCapacity : t.capacity ≤ 142069021) (hTexts : ∀ name ∈ t.names, name.toByteArray.IsValidUTF8) :
    ∃ text, t.report = .ok text := by
  cases hReport : t.report with
  | ok text => exact ⟨text, rfl⟩
  | error halt =>
      obtain ⟨name, hName, cause, hDecoded, -⟩ :=
        (h.countable hFew).chars_error (h.regular_of_capacity hCapacity).distinct
          (report_error_iff.mp hReport)
      obtain ⟨chars, hText⟩ := Utf8.isValidUTF8_iff.mp (hTexts name hName)
      cases hText.symm.trans hDecoded

/-- A report on names without commas is read back, whatever it is a report on. -/
theorem exists_lines_of_report {text : String} (hReport : t.report = .ok text)
    (hCommas : ∀ name ∈ t.names, Report.comma ∉ name) :
    ∃ lines, Report.read? text = some lines ∧
      List.Forall₂ Report.Says (Report.sorted t.stations) lines :=
  Report.exists_read? (report_ok_iff.mp hReport) fun _ hStation =>
    hCommas _ (List.mem_map_of_mem hStation)

/-- From the report on a table that came about, whose names are texts without commas, one and the
same way of reading gives the least, mean and greatest reading of each station, in ascending byte
order of the names. So two such tables with the same report have the same names with the same of
each. Zero is never shown with a sign, and no digit before a point follows a zero at the start. -/
theorem ReachedWith.report_read_back (h : ReachedWith n t) (hFew : n < 2 ^ 31)
    (hCapacity : t.capacity ≤ 142069021)
    (hTexts : ∀ name ∈ t.names, name.toByteArray.IsValidUTF8)
    (hCommas : ∀ name ∈ t.names, Report.comma ∉ name) :
    (∃ text order lines, t.report = .ok text ∧ order.Perm t.stations ∧
      (Listing.names order).Pairwise (· < ·) ∧
      Report.read? text = some lines ∧ List.Forall₂ Report.Says order lines) ∧
    (∀ {otherHash : KeyHash} {m : Int} {other : Table otherHash}, ReachedWith m other → m < 2 ^ 31 →
      other.capacity ≤ 142069021 → (∀ name ∈ other.names, name.toByteArray.IsValidUTF8) →
      (∀ name ∈ other.names, Report.comma ∉ name) → t.report = other.report →
        (∀ name, name ∈ t.names ↔ name ∈ other.names) ∧
        ∀ name a b, t.get? name = some a → other.get? name = some b →
          a.least = b.least ∧ a.mean = b.mean ∧ a.greatest = b.greatest) ∧
    ∀ value : Int, Tenths.chars value ≠ ['-', '0', '.', '0'] ∧
      ∀ sign rest c, sign = [] ∨ sign = ['-'] → Tenths.chars value = sign ++ '0' :: c :: rest →
        ¬ c.isDigit := by
  have hRegular := h.regular_of_capacity hCapacity
  have hPerm := Report.sorted_perm t.stations
  have hOrder := Report.pairwise_names_sorted hRegular.distinct
  obtain ⟨text, hReport⟩ := h.exists_report hFew hCapacity hTexts
  obtain ⟨lines, hRead, hSays⟩ := exists_lines_of_report hReport hCommas
  refine ⟨⟨text, _, lines, hReport, hPerm, hOrder, hRead, hSays⟩, ?_,
    fun value => ⟨Tenths.chars_ne_minus_zero value, fun _ _ _ => Tenths.not_isDigit_of_chars_eq⟩⟩
  intro otherHash m other hOther _ hOtherCapacity _ hOtherCommas hSame
  have hOtherPerm := Report.sorted_perm other.stations
  obtain ⟨others, hOtherRead, hOtherSays⟩ := exists_lines_of_report (hSame ▸ hReport) hOtherCommas
  obtain rfl := Option.some_inj.mp (hRead.symm.trans hOtherRead)
  have hNames :
      Listing.names (Report.sorted t.stations) = Listing.names (Report.sorted other.stations) :=
    (Report.names_of_says hSays).symm.trans (Report.names_of_says hOtherSays)
  constructor
  · intro name
    rw [names, names, Listing.names, Listing.names, ← (hPerm.map Station.name).mem_iff,
      ← (hOtherPerm.map Station.name).mem_iff, ← Listing.names, ← Listing.names, hNames]
  · intro name a b hStation hOtherStation
    rw [hRegular.get?_eq_some_iff] at hStation
    rw [(hOther.regular_of_capacity hOtherCapacity).get?_eq_some_iff] at hOtherStation
    exact Report.says_unique hSays hOtherSays
      ((hPerm.map Station.name).nodup_iff.mpr hRegular.distinct)
      (hPerm.mem_iff.mpr hStation) (hOtherPerm.mem_iff.mpr hOtherStation)

/-- A station without a name, and one whose name is an equals sign, a slash and a brace. -/
theorem report_read_back_delimiters :
    ∃ (t : Table KeyHash.fnv1a) (text : String), t.report = .ok text ∧
      Report.read? text = some [⟨[], -5, -5, -5⟩, ⟨[61, 47, 125], 0, 0, 0⟩] := by
  have hFirst : IsRow ([61, 47, 125] ++ separator :: [48, point, 48]) ⟨[61, 47, 125], 0⟩ :=
    .mk (by decide) (by decide) (by decide) (.unsigned (.short (by decide) (by decide)))
  have hSecond : IsRow ([] ++ separator :: [minus, 48, point, 53]) ⟨[], -5⟩ :=
    .mk (by decide) (by decide) (by decide) (.signed (.short (by decide) (by decide)))
  have hReads :
      Reads [61, 47, 125, 59, 48, 46, 48, 10, 59, 45, 48, 46, 53, 10]
        [⟨[61, 47, 125], 0⟩, ⟨[], -5⟩] :=
    List.Forall₂.cons hFirst (.cons hSecond .nil)
  obtain ⟨t, hReached, hStations, hSize⟩ := exists_reachedWith_of_reads
    (show (withCapacity 9 : Except Fault (Table KeyHash.fnv1a)) =
      .ok (ofSize ⟨9, 0x38e38e39, 1⟩) from rfl)
    (by decide) (by decide) hReads (roomFor_ofSize (by decide) (by decide))
  have hCapacity : t.capacity ≤ 142069021 := by
    rw [capacity, hSize]
    decide
  have hListed : t.stations = [⟨[61, 47, 125], .single 0⟩, ⟨[], .single (-5)⟩] :=
    hStations.trans rfl
  have hNames : t.names = [[61, 47, 125], []] := by rw [names, hListed]; rfl
  have hTexts : ∀ name ∈ t.names, name.toByteArray.IsValidUTF8 := by
    rw [hNames, List.forall_mem_cons, List.forall_mem_singleton, Utf8.isValidUTF8_iff,
      Utf8.isValidUTF8_iff]
    exact ⟨⟨_, rfl⟩, ⟨_, rfl⟩⟩
  obtain ⟨⟨text, order, lines, hReport, hPerm, hOrder, hRead, hSays⟩, -⟩ :=
    hReached.report_read_back (by decide) hCapacity hTexts (by rw [hNames]; decide)
  have hSorted : [⟨[], .single (-5)⟩, ⟨[61, 47, 125], .single 0⟩] = order := by
    rw [Report.eq_sorted hPerm hOrder]
    apply Report.eq_sorted
    · rw [hListed]
      exact .swap _ _ []
    · decide
  have hShown : List.Forall₂ Report.Says [⟨[], .single (-5)⟩, ⟨[61, 47, 125], .single 0⟩]
      [⟨[], -5, -5, -5⟩, ⟨[61, 47, 125], 0, 0, 0⟩] :=
    .cons ⟨rfl, rfl, Tenths.mean_eq (by decide) (by decide), rfl⟩
      (.cons ⟨rfl, rfl, Tenths.mean_eq (by decide) (by decide), rfl⟩ .nil)
  rw [← hSorted] at hSays
  exact ⟨t, text, hReport, by rw [hRead, Report.rightUnique_says.forall₂ hSays hShown]⟩

end StationStats.Table
