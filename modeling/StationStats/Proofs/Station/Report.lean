import Mathlib.Data.List.Sort
import StationStats.Proofs.Station.Listing
import StationStats.Proofs.Station.Tenths
import StationStats.Proofs.Text.Utf8
import StationStats.Station.Report

/-!
What a report says of the observations behind it. Such a report is determined by the observations,
and it is what the report on a listing is, in whatever order the stations are listed.
-/

namespace StationStats

namespace Report

/-! ### The order of names -/

/-- The order of names is the lexicographic one. -/
theorem nameLe_iff {a b : List UInt8} : nameLe a b = true ↔ a ≤ b := by
  induction a generalizing b with
  | nil => simp [nameLe]
  | cons x a ih =>
      cases b with
      | nil => simp [nameLe]
      | cons y b => simp [nameLe, ih, List.cons_le_cons_iff]

theorem nameLe_total (a b : List UInt8) : (nameLe a b || nameLe b a) = true := by
  rw [Bool.or_eq_true, nameLe_iff, nameLe_iff]
  exact List.le_total a b

/-- The sorted stations are those of the listing. -/
theorem sorted_perm (stations : List Station) : (sorted stations).Perm stations :=
  List.mergeSort_perm _ _

/-- The names of the sorted stations ascend strictly. -/
theorem pairwise_names_sorted {stations : List Station}
    (hDistinct : (Listing.names stations).Nodup) :
    (Listing.names (sorted stations)).Pairwise (· < ·) := by
  have hOrdered : (sorted stations).Pairwise fun a b => nameLe a.name b.name := by
    apply List.pairwise_mergeSort
    · intro a b c hab hbc
      exact nameLe_iff.mpr (List.le_trans (nameLe_iff.mp hab) (nameLe_iff.mp hbc))
    · exact fun a b => nameLe_total a.name b.name
  have hNames : (Listing.names (sorted stations)).Pairwise (· ≤ ·) :=
    List.pairwise_map.mpr (hOrdered.imp nameLe_iff.mp)
  have hNodup : (Listing.names (sorted stations)).Nodup :=
    ((sorted_perm stations).map Station.name).nodup_iff.mpr hDistinct
  apply hNames.imp₂ _ hNodup
  intro a b hLe hNe
  by_contra hNotLt
  exact hNe (List.le_antisymm hLe (List.not_lt.mp hNotLt))

/-- Stations whose names ascend strictly are sorted. -/
theorem eq_sorted {order stations : List Station} (hPerm : order.Perm stations)
    (hOrder : (Listing.names order).Pairwise (· < ·)) : order = sorted stations := by
  have hDistinct : (Listing.names order).Nodup := by
    refine hOrder.imp ?_
    rintro name _ hLt rfl
    exact List.lt_irrefl name hLt
  have hSorted := pairwise_names_sorted ((hPerm.map Station.name).nodup_iff.mp hDistinct)
  exact (hPerm.trans (sorted_perm stations).symm).eq_of_pairwise
    (fun a b _ _ hLt hGt => absurd hGt (List.lt_asymm hLt)) (List.pairwise_map.mp hOrder)
      (List.pairwise_map.mp hSorted)

/-- The order of the listing does not matter. -/
theorem sorted_eq_of_perm {stations others : List Station} (hPerm : stations.Perm others)
    (hDistinct : (Listing.names stations).Nodup) : sorted stations = sorted others :=
  eq_sorted ((sorted_perm stations).trans hPerm) (pairwise_names_sorted hDistinct)

/-! ### Reports on observations -/

/-- The entry of a station: its name as text, and the least, mean and greatest of its readings. -/
inductive IsEntry (observations : List Observation) (name : List UInt8) : String → Prop where
  | mk {text : String} {least mean greatest : Int} (hText : text.toByteArray = name.toByteArray)
      (hLeast : (Listing.readingsOf observations name).min? = some least)
      (hMean : Tenths.IsNearest (Listing.readingsOf observations name).sum
        (Listing.readingsOf observations name).length mean)
      (hGreatest : (Listing.readingsOf observations name).max? = some greatest) :
      IsEntry observations name
        (text ++ "=" ++
          (Tenths.decimal least ++ "/" ++ Tenths.decimal mean ++ "/" ++ Tenths.decimal greatest))

/-- The report on observations: the entry of each of their stations once, in ascending
byte order of the names. -/
inductive IsReport (observations : List Observation) : String → Prop where
  | mk {names : List (List UInt8)} {entries : List String} (hOrder : names.Pairwise (· < ·))
      (hNames : ∀ name, name ∈ names ↔ name ∈ observations.map Observation.name)
      (hEntries : List.Forall₂ (IsEntry observations) names entries) :
      IsReport observations ("\x7b" ++ ", ".intercalate entries ++ "\x7d\n")

theorem IsEntry.unique {observations : List Observation} {name : List UInt8} {first second : String}
    (hFirst : IsEntry observations name first) (hSecond : IsEntry observations name second) :
    first = second := by
  obtain ⟨hText, hLeast, hMean, hGreatest⟩ := hFirst
  obtain ⟨hText', hLeast', hMean', hGreatest'⟩ := hSecond
  have hSome : 0 < ((Listing.readingsOf observations name).length : Int) := by
    have hMem := (List.min?_eq_some_iff.mp hLeast).1
    exact Int.natCast_pos.mpr (List.length_pos_of_mem hMem)
  rw [String.toByteArray_inj.mp (hText.trans hText'.symm),
    Option.some_inj.mp (hLeast.symm.trans hLeast'),
    hMean.unique hSome hMean', Option.some_inj.mp (hGreatest.symm.trans hGreatest')]

/-- There is at most one report on observations. -/
theorem IsReport.unique {observations : List Observation} {first second : String}
    (hFirst : IsReport observations first) (hSecond : IsReport observations second) :
    first = second := by
  obtain ⟨hOrder, hNames, hEntries⟩ := hFirst
  obtain ⟨hOrder', hNames', hEntries'⟩ := hSecond
  obtain rfl := hOrder.eq_of_mem_iff hOrder' fun {name} => (hNames name).trans (hNames' name).symm
  have hUnique : Relator.RightUnique (IsEntry observations) := fun _ _ _ h h' => h.unique h'
  rw [hUnique.forall₂ hEntries hEntries']

/-- There is a report exactly if all names are texts. -/
theorem exists_isReport_iff {observations : List Observation} :
    (∃ report, IsReport observations report) ↔
      ∀ name ∈ observations.map Observation.name, name.toByteArray.IsValidUTF8 := by
  constructor
  · rintro ⟨_, hOrder, hNames, hEntries⟩ name hName
    obtain ⟨_, hText, -⟩ := exists_forall₂_iff.mp ⟨_, hEntries⟩ name ((hNames name).mpr hName)
    exact hText ▸ String.isValidUTF8 _
  · intro hTexts
    have hTallies := Listing.tallies_replay observations
    have hNames (name : List UInt8) :
        name ∈ Listing.names (sorted (Listing.replay observations [])) ↔
        name ∈ observations.map Observation.name :=
      ((sorted_perm _).map Station.name).mem_iff.trans (hTallies.mem_names name)
    have hEach : ∀ name ∈ Listing.names (sorted (Listing.replay observations [])),
        ∃ entry, IsEntry observations name entry := by
      intro name hName
      have hText :
          (String.fromUTF8 name.toByteArray (hTexts name ((hNames name).mp hName))).toByteArray =
          name.toByteArray := rfl
      obtain ⟨station, hStation, rfl⟩ := List.mem_map.mp hName
      have hSummarises := hTallies.summarises station ((sorted_perm _).mem_iff.mp hStation)
      have hCount := hSummarises.count_pos
      rw [hSummarises.count] at hCount
      exact ⟨_,
        .mk hText hSummarises.least (Tenths.isNearest_roundedMean hCount) hSummarises.greatest⟩
    obtain ⟨entries, hEntries⟩ := exists_forall₂_iff.mpr hEach
    exact ⟨_, .mk (pairwise_names_sorted hTallies.distinct) hNames hEntries⟩

/-! ### The report on a listing -/

/-- What is shown of a station is its name as text, an equals sign, and its readings. -/
theorem entryChars_ok_iff {station : Station} {shown : List Char} :
    entryChars station = .ok shown ↔ ∃ name readings, Utf8.decode station.name = .ok name ∧
      station.aggregate.chars = .ok readings ∧ shown = name ++ '=' :: readings := by
  rw [entryChars]
  cases Utf8.decode station.name with
  | error cause => simp
  | ok name => cases station.aggregate.chars <;> simp [eq_comm]

/-- What is to be shown of a station: its name as text, and its least, mean and greatest reading. -/
inductive Shows (station : Station) : String → Prop where
  | mk {text : String} {mean : Int} (hText : text.toByteArray = station.name.toByteArray)
      (hMean : Tenths.IsNearest station.aggregate.sum station.aggregate.count mean) :
      Shows station (text ++ "=" ++
        (Tenths.decimal station.aggregate.least ++ "/" ++ Tenths.decimal mean ++ "/" ++
          Tenths.decimal station.aggregate.greatest))

theorem Shows.isValidUTF8 {station : Station} {entry : String} (h : Shows station entry) :
    station.name.toByteArray.IsValidUTF8 := by
  obtain ⟨hText, -⟩ := h
  exact hText ▸ String.isValidUTF8 _

theorem entryChars_ok_iff_shows {station : Station} (hCredible : station.aggregate.Credible)
    (hCount : station.aggregate.count < 2 ^ 31) {entry : String} :
    entryChars station = .ok entry.toList ↔ Shows station entry := by
  have hReadings := hCredible.chars_eq hCount
  have hMean : Tenths.IsNearest station.aggregate.sum station.aggregate.count
      (Tenths.roundedMean station.aggregate.sum station.aggregate.count) :=
    Tenths.isNearest_roundedMean hCredible.count_pos
  have hEntry (text readings : String) :
      text.toList ++ '=' :: readings.toList = (text ++ "=" ++ readings).toList := by simp
  rw [entryChars_ok_iff]
  constructor
  · rintro ⟨name, readings, hName, hShown, hBoth⟩
    have hText : (String.ofList name).toByteArray = station.name.toByteArray := by
      rw [Utf8.toByteArray_eq_iff, String.toList_ofList]
      exact Utf8.decode_ok_iff.mp hName
    rw [← Except.ok.inj (hReadings.symm.trans hShown), ← String.toList_ofList (l := name), hEntry,
      String.toList_inj] at hBoth
    rw [hBoth]
    exact .mk hText hMean
  · rintro ⟨hText, hNearest⟩
    rw [hNearest.unique hCredible.count_pos hMean, ← hEntry]
    exact ⟨_, _, Utf8.decode_ok_iff.mpr (Utf8.toByteArray_eq_iff.mp hText), hReadings, rfl⟩

/-- It is the entry in a report on the observations that the aggregate of the station sums up. -/
theorem shows_iff_isEntry {observations : List Observation} {station : Station}
    (hSummarises : station.aggregate.Summarises (Listing.readingsOf observations station.name))
    {entry : String} :
    Shows station entry ↔ IsEntry observations station.name entry := by
  constructor
  · rintro ⟨hText, hMean⟩
    rw [hSummarises.sum, hSummarises.count] at hMean
    exact .mk hText hSummarises.least hMean hSummarises.greatest
  · rintro ⟨hText, hLeast, hMean, hGreatest⟩
    rw [← hSummarises.sum, ← hSummarises.count] at hMean
    rw [Option.some_inj.mp (hLeast.symm.trans hSummarises.least),
      Option.some_inj.mp (hGreatest.symm.trans hSummarises.greatest)]
    exact .mk hText hMean

theorem entries_cons_ok_iff {station : Station} {rest : List Station} {shown : List (List Char)} :
    entries (station :: rest) = .ok shown ↔
      ∃ entry more, entryChars station = .ok entry ∧ entries rest = .ok more ∧
        shown = entry :: more := by
  rw [entries]
  cases entryChars station with
  | error halt => simp
  | ok entry => cases entries rest <;> simp [Except.map, eq_comm]

/-- The entries of several stations are what is to be shown of them if each of them is. -/
theorem entries_ok_iff {shows : Station → String → Prop} {stations : List Station}
    (hEach : ∀ station ∈ stations, ∀ entry : String, entryChars station = .ok entry.toList ↔
      shows station entry)
    {shown : List String} :
    entries stations = .ok (shown.map String.toList) ↔ List.Forall₂ shows stations shown := by
  induction stations generalizing shown with
  | nil => cases shown <;> simp [entries]
  | cons station rest ih =>
      rw [List.forall_mem_cons] at hEach
      rw [entries_cons_ok_iff, List.forall₂_cons_left_iff]
      cases shown with
      | nil => simp
      | cons entry more =>
          simp only [List.map_cons, List.cons.injEq, ← hEach.1, ← ih hEach.2]
          constructor
          · rintro ⟨_, _, hEntry, hMore, rfl, rfl⟩
            exact ⟨entry, more, hEntry, hMore, rfl, rfl⟩
          · rintro ⟨_, _, hEntry, hMore, rfl, rfl⟩
            exact ⟨_, _, hEntry, hMore, rfl, rfl⟩

/-- What is shown of a listing stands between braces. -/
theorem chars_ok_iff {stations : List Station} {report : String} :
    chars stations = .ok report.toList ↔ ∃ shown : List String,
      entries (sorted stations) = .ok (shown.map String.toList) ∧
        report = "\x7b" ++ ", ".intercalate shown ++ "\x7d\n" := by
  have hText (shown : List String) :
      '\x7b' :: (List.intercalate [',', ' '] (shown.map String.toList) ++
      ['\x7d', '\n']) = ("\x7b" ++ ", ".intercalate shown ++ "\x7d\n").toList := by
    simp
  rw [chars]
  cases entries (sorted stations) with
  | error halt => simp [Except.map]
  | ok shown =>
      obtain ⟨texts, rfl⟩ : ∃ texts : List String, shown = texts.map String.toList :=
        ⟨shown.map String.ofList, by simp⟩
      rw [Except.map, Except.ok.injEq, hText, String.toList_inj]
      constructor
      · intro hReport
        exact ⟨texts, rfl, hReport.symm⟩
      · rintro ⟨same, hSame, rfl⟩
        rw [← String.toList_inj, ← hText, ← hText, Except.ok.inj hSame]

theorem chars_error_iff {stations : List Station} {halt : Halt NameError} :
    chars stations = .error halt ↔ entries (sorted stations) = .error halt := by
  rw [chars]
  cases entries (sorted stations) <;> simp [Except.map]

/-- The report on a listing of observations is the report on these, unless there is none because a
name is no text. The order of the listing does not matter. -/
theorem chars_ok_iff_isReport {observations : List Observation} {stations : List Station}
    (hTallies : Listing.Tallies observations stations)
    (hSmall : ∀ o ∈ observations, o.tenths.natAbs ≤ 2 ^ 15)
    (hCount : observations.length < 2 ^ 31) {report : String} :
    chars stations = .ok report.toList ↔ IsReport observations report := by
  have hEach (station : Station) (hStation : station ∈ sorted stations) (entry : String) :
      entryChars station = .ok entry.toList ↔ IsEntry observations station.name entry := by
    have hSummarises := hTallies.summarises station ((sorted_perm stations).mem_iff.mp hStation)
    rw [← shows_iff_isEntry hSummarises]
    refine entryChars_ok_iff_shows (hSummarises.credible fun value hValue => ?_) ?_
    · obtain ⟨o, ho, rfl⟩ := List.mem_map.mp hValue
      exact hSmall o (List.mem_filter.mp ho).1
    · have hLength := List.length_filter_le (fun o => decide (o.name = station.name)) observations
      rw [hSummarises.count, Listing.readingsOf, List.length_map]
      omega
  have hOrder := pairwise_names_sorted hTallies.distinct
  have hNames (name : List UInt8) :
      name ∈ Listing.names (sorted stations) ↔ name ∈ observations.map Observation.name :=
    ((sorted_perm stations).map Station.name).mem_iff.trans (hTallies.mem_names name)
  rw [chars_ok_iff]
  constructor
  · rintro ⟨shown, hShown, rfl⟩
    exact .mk hOrder hNames (List.forall₂_map_left_iff.mpr ((entries_ok_iff hEach).mp hShown))
  · rintro ⟨hOrder', hNames', hEntries⟩
    refine ⟨_, (entries_ok_iff hEach).mpr (List.forall₂_map_left_iff.mp ?_), rfl⟩
    change List.Forall₂ _ (Listing.names (sorted stations)) _
    rwa [hOrder.eq_of_mem_iff hOrder' fun {name} => (hNames name).trans (hNames' name).symm]

/-! ### Reports that differ in nothing -/

/-- The listing decides the report, and its order does not matter. -/
theorem chars_eq_of_perm {stations others : List Station} (hPerm : stations.Perm others)
    (hDistinct : (Listing.names stations).Nodup) : chars stations = chars others := by
  rw [chars, sorted_eq_of_perm hPerm hDistinct, chars]

/-! ### Reports on different stations -/

/-- Each of the stations is shown once, in strictly ascending byte order of the names. -/
inductive Lists (stations : List Station) : String → Prop where
  | mk {order : List Station} {shown : List String} (hPerm : order.Perm stations)
      (hOrder : (Listing.names order).Pairwise (· < ·)) (hShown : List.Forall₂ Shows order shown) :
      Lists stations ("\x7b" ++ ", ".intercalate shown ++ "\x7d\n")

/-- The aggregates are those of so few readings that their counts fit. -/
structure Countable (stations : List Station) : Prop where
  credible : ∀ station ∈ stations, station.aggregate.Credible
  count_lt : ∀ station ∈ stations, station.aggregate.count < 2 ^ 31

variable {stations : List Station}

theorem Countable.sorted (h : Countable stations) : Countable (sorted stations) where
  credible station hStation := h.credible station ((sorted_perm stations).mem_iff.mp hStation)
  count_lt station hStation := h.count_lt station ((sorted_perm stations).mem_iff.mp hStation)

/-- What is shown of different stations lists them. -/
theorem Countable.chars_ok_iff_lists (h : Countable stations)
    (hDistinct : (Listing.names stations).Nodup)
    {report : String} : chars stations = .ok report.toList ↔ Lists stations report := by
  have hEach (station : Station) (hStation : station ∈ Report.sorted stations) (entry : String) :
      entryChars station = .ok entry.toList ↔ Shows station entry :=
    entryChars_ok_iff_shows (h.sorted.credible station hStation)
      (h.sorted.count_lt station hStation)
  rw [chars_ok_iff]
  constructor
  · rintro ⟨shown, hShown, rfl⟩
    exact .mk (sorted_perm stations) (pairwise_names_sorted hDistinct)
      ((entries_ok_iff hEach).mp hShown)
  · rintro ⟨hPerm, hOrder, hShown⟩
    refine ⟨_, (entries_ok_iff hEach).mpr ?_, rfl⟩
    rwa [← eq_sorted hPerm hOrder]

theorem Lists.isValidUTF8 {report : String} (h : Lists stations report) :
    ∀ name ∈ Listing.names stations, name.toByteArray.IsValidUTF8 := by
  obtain ⟨hPerm, -, hShown⟩ := h
  intro name hName
  obtain ⟨station, hStation, rfl⟩ := List.mem_map.mp hName
  obtain ⟨_, hShows⟩ := exists_forall₂_iff.mp ⟨_, hShown⟩ station (hPerm.mem_iff.mpr hStation)
  exact hShows.isValidUTF8

/-- If there are no entries, that is because of the first name that is no text. -/
theorem Countable.entries_error (h : Countable stations) {halt : Halt NameError}
    (hError : entries stations = .error halt) :
    ∃ before station after cause, stations = before ++ station :: after ∧
      (∀ earlier ∈ before, earlier.name.toByteArray.IsValidUTF8) ∧
        Utf8.decode station.name = .error cause ∧
        halt = .failed ⟨station.name, cause⟩ := by
  induction stations with
  | nil => cases hError
  | cons station rest ih =>
      have hReadings :=
        (h.credible station List.mem_cons_self).chars_eq (h.count_lt station List.mem_cons_self)
      have hRest : Countable rest :=
        ⟨(List.forall_mem_cons.mp h.credible).2, (List.forall_mem_cons.mp h.count_lt).2⟩
      rw [entries, entryChars, hReadings] at hError
      cases hDecoded : Utf8.decode station.name with
      | error cause =>
          rw [hDecoded] at hError
          cases hError
          exact ⟨[], station, rest, cause, rfl, by simp, hDecoded, rfl⟩
      | ok text =>
          cases hOthers : entries rest with
          | ok shown => simp [hDecoded, hOthers, Except.map] at hError
          | error other =>
              simp only [hDecoded, hOthers, Except.map, Except.error.injEq] at hError
              subst hError
              obtain ⟨before, bad, after, cause, rfl, hBefore, hBad, hHalt⟩ := ih hRest hOthers
              have hFirst := Utf8.isValidUTF8_iff.mpr ⟨text, hDecoded⟩
              exact ⟨station :: before, bad, after, cause, rfl,
                List.forall_mem_cons.mpr ⟨hFirst, hBefore⟩, hBad, hHalt⟩

/-- If there is no report on different stations, that is because of the least
name that is no text. -/
theorem Countable.chars_error (h : Countable stations) (hDistinct : (Listing.names stations).Nodup)
    {halt : Halt NameError} (hError : chars stations = .error halt) :
    ∃ name ∈ Listing.names stations, ∃ cause, Utf8.decode name = .error cause ∧
      halt = .failed ⟨name, cause⟩ ∧
      ∀ other ∈ Listing.names stations, ¬ other.toByteArray.IsValidUTF8 → name ≤ other := by
  obtain ⟨before, station, after, cause, hSorted, hBefore, hDecoded, hHalt⟩ :=
    h.sorted.entries_error (chars_error_iff.mp hError)
  have hPerm := (sorted_perm stations).map Station.name
  have hOrder := pairwise_names_sorted hDistinct
  rw [hSorted] at hPerm
  rw [hSorted, Listing.names, List.map_append, List.map_cons, List.pairwise_append,
    List.pairwise_cons] at hOrder
  refine ⟨station.name, hPerm.mem_iff.mp (by simp), cause, hDecoded, hHalt,
    fun other hOther hBad => ?_⟩
  obtain ⟨shown, hShown, rfl⟩ := List.mem_map.mp (hPerm.mem_iff.mpr hOther)
  rcases List.mem_append.mp hShown with hEarlier | hHere
  · exact absurd (hBefore shown hEarlier) hBad
  · rcases List.mem_cons.mp hHere with rfl | hLater
    · exact List.le_refl _
    · exact List.le_of_lt (hOrder.2.1.1 shown.name (List.mem_map_of_mem hLater))

theorem Countable.chars_ne_fault (h : Countable stations) (fault : Fault) :
    chars stations ≠ .error (.fault fault) := by
  intro hFault
  obtain ⟨_, _, _, _, -, -, -, hHalt⟩ := h.sorted.entries_error (chars_error_iff.mp hFault)
  cases hHalt

end Report

namespace Table

variable {hash : KeyHash} {t : Table hash}

theorem report_ok_iff {text : String} :
    t.report = .ok text ↔ Report.chars t.stations = .ok text.toList := by
  rw [report]
  cases Report.chars t.stations with
  | error halt => simp [Except.map]
  | ok chars =>
      rw [Except.map, Except.ok.injEq, Except.ok.injEq, ← String.toList_inj, String.toList_ofList]

theorem report_error_iff {halt : Halt NameError} :
    t.report = .error halt ↔ Report.chars t.stations = .error halt := by
  rw [report]
  cases Report.chars t.stations <;> simp [Except.map]

/-- Tables that list the same different stations, in whatever order, have the same report. -/
theorem report_eq_of_perm {otherHash : KeyHash} {other : Table otherHash}
    (hPerm : t.stations.Perm other.stations) (hDistinct : (Listing.names t.stations).Nodup) :
    t.report = other.report := by
  rw [report, Report.chars_eq_of_perm hPerm hDistinct, report]

end Table

end StationStats
