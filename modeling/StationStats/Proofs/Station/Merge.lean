import Mathlib.Data.List.Perm.Subperm
import StationStats.Proofs.Station.Observe
import StationStats.Proofs.Station.Table

/-!
Runs of additions. Observations that are added one by one and tables that are merged both come down
to adding the readings of one station after another, and a table in good order ends up with the
merged listing. Whether everything finds room can be told from that listing.
-/

namespace StationStats

/-- The name fits a key and the reading sixteen bits. -/
structure Observation.Storable (o : Observation) : Prop where
  short : o.name.length ≤ keyBytes
  fits : Tenths.Fits UInt16.size o.tenths

instance (o : Observation) : Decidable o.Storable :=
  decidable_of_iff (o.name.length ≤ keyBytes ∧ Tenths.Fits UInt16.size o.tenths)
    ⟨fun ⟨short, fits⟩ => ⟨short, fits⟩, fun ⟨short, fits⟩ => ⟨short, fits⟩⟩

theorem Observation.Storable.natAbs_le {o : Observation} (h : o.Storable) :
    o.tenths.natAbs ≤ 2 ^ 15 := by
  have hFits := h.fits
  simp only [Tenths.Fits, UInt16.size] at hFits
  omega

theorem Observation.Storable.credible {o : Observation} (h : o.Storable) :
    o.station.aggregate.Credible :=
  (Aggregate.summarises_single o.tenths).credible (List.forall_mem_singleton.mpr h.natAbs_le)

/-- Observations so few that no count of them leaves its field, each of which can be stored. -/
structure Recordable (observations : List Observation) : Prop where
  each : ∀ o ∈ observations, o.Storable
  few : observations.length < 2 ^ 31

theorem Recordable.of_subperm {observations more : List Observation} (h : Recordable observations)
    (hMore : more.Subperm observations) : Recordable more where
  each o ho := h.each o (hMore.subset ho)
  few := hMore.length_le.trans_lt h.few

theorem Recordable.count_lt {observations : List Observation} (h : Recordable observations)
    {a : Aggregate} {name : List UInt8}
    (hSummarises : a.Summarises (Listing.readingsOf observations name)) :
    a.count < 2 ^ 31 := by
  have hFewer := List.length_filter_le (fun o => decide (o.name = name)) observations
  have hFew := h.few
  rw [hSummarises.count, Listing.readingsOf, List.length_map]
  omega

theorem Recordable.credible {observations : List Observation} (h : Recordable observations)
    {a : Aggregate} {name : List UInt8}
    (hSummarises : a.Summarises (Listing.readingsOf observations name)) :
    a.Credible := by
  refine hSummarises.credible fun value hValue => ?_
  obtain ⟨o, ho, rfl⟩ := List.mem_map.mp hValue
  exact (h.each o (List.mem_filter.mp ho).1).natAbs_le

namespace Table

variable {hash : KeyHash} {t t' : Table hash}

/-- The words that the names of a listing take. -/
def wordsOf (names : List (List UInt8)) :
    Nat := (names.map fun name => Word.countFor name.length).sum

/-- Adds the readings of several stations and stops at the first that the table refuses. -/
def absorbEach : List Station → EStateM Fault (Table hash) Unit
  | [] => fun t => .ok () t
  | station :: rest => fun t =>
    match absorb (Key.packed station.name) (hash (Key.pack station.name)) station.aggregate t with
    | .error fault t => .error fault t
    | .ok _ t => absorbEach rest t

theorem absorbEach_cons_ok_iff {station : Station} {rest : List Station} :
    absorbEach (station :: rest) t = .ok () t' ↔
      ∃ between, absorb (Key.packed station.name) (hash (Key.pack station.name))
        station.aggregate t = .ok () between ∧ absorbEach rest between = .ok () t' := by
  cases hFirst :
    absorb (Key.packed station.name) (hash (Key.pack station.name)) station.aggregate t <;>
    simp [absorbEach, hFirst]

/-- Adding observations is adding the readings of their stations. -/
theorem observeAll_eq {observations : List Observation}
    (hShort : ∀ o ∈ observations, o.name.length ≤ keyBytes) (t : Table hash) :
    observeAll observations t = absorbEach (observations.map Observation.station) t := by
  induction observations generalizing t with
  | nil => rfl
  | cons o rest ih =>
      rw [List.forall_mem_cons] at hShort
      simp only [observeAll, observe_eq hShort.1, add, Key.words_packed, List.map_cons, absorbEach,
        Observation.station]
      cases absorb (Key.packed o.name) (hash (Key.pack o.name)) (Aggregate.single o.tenths) t with
      | error fault s => rfl
      | ok u s => exact ih hShort.2 s

theorem absorbAll_cons_ok_iff {other : Table hash} {entry : Entry} {rest : List Entry} :
    absorbAll other (entry :: rest) t = .ok () t' ↔
      ∃ between, absorb (other.key entry) entry.hash entry.aggregate t = .ok () between ∧
        absorbAll other rest between = .ok () t' := by
  cases hFirst : absorb (other.key entry) entry.hash entry.aggregate t <;> simp [absorbAll, hFirst]

/-- Merging the entries of two lists one after the other is merging those of both. -/
theorem absorbAll_append_ok_iff {other : Table hash} {first second : List Entry} :
    absorbAll other (first ++ second) t = .ok () t' ↔
      ∃ between, absorbAll other first t = .ok () between ∧
        absorbAll other second between = .ok () t' := by
  induction first generalizing t with
  | nil => simp [absorbAll]
  | cons entry rest ih =>
      simp only [List.cons_append, absorbAll_cons_ok_iff, ih]
      tauto

/-- Merging entries of a table is adding the readings of their stations. -/
theorem absorbAll_eq {other : Table hash} {entries : List Entry} (hEntries : ∀ entry ∈ entries,
    Stored other entry) (t : Table hash) :
    absorbAll other entries t = absorbEach (entries.map fun entry =>
      { name := (other.key entry).name, aggregate := entry.aggregate }) t := by
  induction entries generalizing t with
  | nil => rfl
  | cons entry rest ih =>
      rw [List.forall_mem_cons] at hEntries
      simp only [absorbAll, List.map_cons, absorbEach, ← hEntries.1.key, ← hEntries.1.hash_eq]
      cases absorb (other.key entry) entry.hash entry.aggregate t with
      | error fault s => rfl
      | ok u s => exact ih hEntries.2 s

/-- Merging a table in good order is adding the readings of its stations. -/
theorem Valid.mergeFrom_eq {other : Table hash} (h : Valid other) (t : Table hash) :
    mergeFrom other t = absorbEach other.stations t :=
  absorbAll_eq (fun entry hEntry => h.stored entry (Array.mem_toList_iff.mp hEntry)) t

/-- The entries before the one that is refused are merged. -/
theorem exists_absorbAll_take (other : Table hash) (entries : List Entry) (t : Table hash) :
    ∃ k, absorbAll other (entries.take k) t = .ok () (stateAfter (absorbAll other entries) t) ∧
      ∀ fault t', absorbAll other entries t = .error fault t' → ∃ entry, entries[k]? = some entry ∧
        absorb (other.key entry) entry.hash entry.aggregate t' = .error fault t' := by
  induction entries generalizing t with
  | nil => exact ⟨0, rfl, fun fault t' hRefused => by cases hRefused⟩
  | cons entry rest ih =>
      cases hFirst : absorb (other.key entry) entry.hash entry.aggregate t with
      | error fault t' =>
          obtain rfl := eq_of_absorb_error hFirst
          have hAll : absorbAll other (entry :: rest) t' = .error fault t' := by
            simp only [absorbAll, hFirst]
          refine ⟨0, by rw [stateAfter_of_error hAll]; rfl, fun fault t'' hRefused => ?_⟩
          cases hAll.symm.trans hRefused
          exact ⟨entry, rfl, hFirst⟩
      | ok u between =>
          obtain ⟨k, hTaken, hStops⟩ := ih between
          refine ⟨k + 1, ?_, fun fault t' hRefused => ?_⟩
          · simpa only [List.take_succ_cons, absorbAll, stateAfter, hFirst] using hTaken
          · simp only [absorbAll, hFirst] at hRefused
            exact hStops fault t' hRefused

/-- What adding the readings behind an entry keeps, merging keeps. -/
theorem mergeFrom_preserves {P : Table hash → Prop} {other : Table hash}
    (hAbsorb : ∀ entry ∈ other.entries, ∀ t t', P t →
      absorb (other.key entry) entry.hash entry.aggregate t = .ok () t' → P t') (h : P t) :
    P (stateAfter (mergeFrom other) t) := by
  have hAll (entries : List Entry) (hEntries : ∀ entry ∈ entries, entry ∈ other.entries)
      (t : Table hash) (h : P t) : P (stateAfter (absorbAll other entries) t) := by
    induction entries generalizing t with
    | nil => exact h
    | cons entry rest ih =>
        rw [List.forall_mem_cons] at hEntries
        simp only [stateAfter, absorbAll]
        cases hFirst : absorb (other.key entry) entry.hash entry.aggregate t with
        | error fault t' => exact eq_of_absorb_error hFirst ▸ h
        | ok u t' => exact ih hEntries.2 t' (hAbsorb entry hEntries.1 t t' h hFirst)
  exact hAll other.entries.toList (fun entry hEntry => Array.mem_toList_iff.mp hEntry) t h

/-! ### What is added -/

/-- The array of keys never shrinks. -/
theorem size_keys_le_of_absorb {key : Key} {hashed : UInt32} {a : Aggregate}
    (hAdded : absorb key hashed a t = .ok () t') : t.keys.size ≤ t'.keys.size := by
  rcases absorb_ok_cases hAdded with ⟨i, entry, -, -, rfl⟩ | ⟨-, rfl⟩
  · exact le_rfl
  · rw [size_keys_withStation]
    exact Nat.le_add_right _ _

/-- A table in good order is so afterwards if a new name has a position. -/
theorem Valid.gathers_of_absorb (h : Valid t) {name : List UInt8} {a : Aggregate}
    (hShort : name.length ≤ keyBytes) (hPosition : name ∉ t.names → t.HasPositionFor name)
    (hAdded : absorb (Key.packed name) (hash (Key.pack name)) a t = .ok () t') :
    Gathers name a t t' := by
  obtain ⟨s, hSame, hGathers⟩ := h.absorb_of_takes (h.takes_of_absorb hAdded) hShort hPosition
  rw [hAdded] at hSame
  cases hSame
  exact hGathers

theorem Gathers.mem_names_iff {name other : List UInt8} {a : Aggregate} (h : Gathers name a t t') :
    other ∈ t'.names ↔ other = name ∨ other ∈ t.names := by
  rw [names, h.stations, Listing.mem_names_gather, names]

/-- Names up to a length stay the only ones. -/
theorem Gathers.names_le {bound : Nat} {name : List UInt8} {a : Aggregate} (h : Gathers name a t t')
    (hLength : name.length ≤ bound) (hAll : ∀ other ∈ t.names, other.length ≤ bound) :
    ∀ other ∈ t'.names, other.length ≤ bound := by
  intro other hOther
  rcases h.mem_names_iff.mp hOther with rfl | hOld
  · exact hLength
  · exact hAll other hOld

/-- What holds of all aggregates of a table and of the one that is added still
does if joining keeps it. -/
theorem Gathers.forall_mem {P : Aggregate → Prop} (hJoin : ∀ {a b : Aggregate}, P a → P b →
    P (a.join b)) {name : List UInt8} {a : Aggregate} (h : Gathers name a t t') (hNew : P a)
    (hAll : ∀ station ∈ t.stations, P station.aggregate) :
    ∀ station ∈ t'.stations, P station.aggregate := by
  rw [h.stations]
  exact Listing.forall_mem_gather (fun old hOld _ => hJoin (hAll old hOld) hNew) hNew hAll

/-! ### What finds room -/

/-- A table of this size can hold this listing. -/
structure Fits (size : TableSize) (stations : List Station) : Prop where
  length_le : stations.length ≤ size.slots.toNat
  counts : ∀ name, Listing.countOf name stations < 2 ^ 31
  words : wordsOf (Listing.names stations) ≤ UInt32.size

/-- The table is in good order and every aggregate sums up readings between -99.9 and 99.9. -/
structure Sound (t : Table hash) : Prop extends Valid t where
  bounded : ∀ station ∈ t.stations, station.aggregate.Bounded

theorem countFor_mono {m n : Nat} (h : m ≤ n) : Word.countFor m ≤ Word.countFor n :=
  Nat.div_le_div_right (Nat.add_le_add_right h 7)

theorem wordsOf_append (first second : List (List UInt8)) :
    wordsOf (first ++ second) = wordsOf first + wordsOf second := by
  rw [wordsOf, List.map_append, List.sum_append, wordsOf, wordsOf]

/-- Lengths up to a bound call for at most the words of as many times that bound. -/
theorem sum_countFor_le {bound : Nat} {lengths : List Nat}
    (h : ∀ length ∈ lengths, length ≤ bound) :
    (lengths.map Word.countFor).sum ≤ Word.countFor bound * lengths.length := by
  induction lengths with
  | nil => exact Nat.zero_le _
  | cons length rest ih =>
      rw [List.forall_mem_cons] at h
      have hFirst := countFor_mono h.1
      have hRest := ih h.2
      rw [List.map_cons, List.sum_cons, List.length_cons, Nat.mul_succ]
      omega

/-- Names up to a length take at most the words of as many names of that length. -/
theorem wordsOf_le {bound : Nat} {names : List (List UInt8)}
    (h : ∀ name ∈ names, name.length ≤ bound) :
    wordsOf names ≤ Word.countFor bound * names.length := by
  have hLengths : ∀ length ∈ names.map List.length, length ≤ bound := List.forall_mem_map.mpr h
  have hSum := sum_countFor_le hLengths
  rwa [List.map_map, List.length_map] at hSum

/-- More names take more words. -/
theorem wordsOf_le_of_subset {names more : List (List UInt8)} (hDistinct : names.Nodup)
    (hMore : names ⊆ more) : wordsOf names ≤ wordsOf more := by
  obtain ⟨order, hPerm, hSublist⟩ := hDistinct.subperm hMore
  calc wordsOf names = wordsOf order := ((hPerm.map _).sum_nat).symm
    _ ≤ wordsOf more := (hSublist.map _).sum_le_sum fun _ _ => Nat.zero_le _

/-- A listing of short names fits if there is room for them and as many longest ones
would have positions. -/
theorem Fits.of_short {size : TableSize} {bound : Nat} {stations : List Station}
    (hLength : (Listing.names stations).length ≤ size.slots.toNat)
    (hCounts : ∀ name, Listing.countOf name stations < 2 ^ 31)
    (hShort : ∀ name ∈ Listing.names stations, name.length ≤ bound)
    (hPositions : Word.countFor bound * size.slots.toNat ≤ UInt32.size) : Fits size stations where
  length_le := by rwa [Listing.names, List.length_map] at hLength
  counts := hCounts
  words := (wordsOf_le hShort).trans ((Nat.mul_le_mul_left _ hLength).trans hPositions)

/-- Up to the last size but two there is an empty table with enough room, which is not so large that
the words of its keys could outgrow their positions. -/
theorem exists_withCapacity (hash : KeyHash) {wanted : Nat} (h : wanted ≤ 142069021) :
    ∃ size ∈ TableSize.all, TableSize.atLeast wanted = .ok size ∧
      (withCapacity wanted : Except Fault (Table hash)) = .ok (ofSize size) ∧
      wanted ≤ size.slots.toNat ∧
        Word.countFor keyBytes * size.slots.toNat ≤ UInt32.size := by
  obtain ⟨size, hSize, hLeast, hEnough, hSlots⟩ := TableSize.exists_atLeast h
  refine ⟨size, hSize, hLeast, ?_, hEnough, (Nat.mul_le_mul_left _ hSlots).trans (by decide)⟩
  rw [withCapacity, hLeast]

/-- A listing fitted before readings were added to it if it fits with them. -/
theorem Fits.of_gather {size : TableSize} {stations : List Station} {name : List UInt8}
    {a : Aggregate} (h : Fits size (Listing.gather name a stations)) (hCount : 0 ≤ a.count) :
    Fits size stations := by
  obtain ⟨hLength, hCounts, hWords⟩ := h
  have hGrow : ∃ new, Listing.names (Listing.gather name a stations) =
      Listing.names stations ++ new := by
    rw [Listing.names_gather]
    split
    · exact ⟨[], (List.append_nil _).symm⟩
    · exact ⟨[name], rfl⟩
  obtain ⟨new, hNames⟩ := hGrow
  refine ⟨?_, fun other => ?_, ?_⟩
  · have hLonger := congrArg List.length hNames
    rw [List.length_append, Listing.names, Listing.names, List.length_map,
      List.length_map] at hLonger
    omega
  · have hOther := hCounts other
    rw [Listing.countOf_gather] at hOther
    split at hOther <;> omega
  · rw [hNames, wordsOf_append] at hWords
    omega

theorem Fits.of_merge {size : TableSize} {stations other : List Station}
    (h : Fits size (Listing.merge stations other))
    (hCounts : ∀ station ∈ other, 0 ≤ station.aggregate.count) : Fits size stations := by
  induction other generalizing stations with
  | nil => exact h
  | cons station rest ih =>
      rw [List.forall_mem_cons] at hCounts
      exact (ih h hCounts.2).of_gather hCounts.1

/-- Readings go into the fields of a listed station if the listing with them
does not count too many. -/
theorem Valid.inRange_of_countOf_lt (h : Valid t) (hCredible : ∀ station ∈ t.stations,
    station.aggregate.Credible) {name : List UInt8} {a : Aggregate} (hNew : a.Credible)
    (hCount : Listing.countOf name (Listing.gather name a t.stations) < 2 ^ 31) :
    ∀ station ∈ t.stations, station.name = name → (station.aggregate.join a).InRange := by
  rintro station hStation rfl
  apply ((hCredible station hStation).join hNew).inRange
  rw [Listing.countOf_gather, if_pos rfl, Listing.countOf_of_mem h.distinct hStation] at hCount
  exact hCount

/-- Readings are taken if the listing with them fits. -/
theorem Valid.takes_of_fits (h : Valid t) (hCredible : ∀ station ∈ t.stations,
    station.aggregate.Credible) {name : List UInt8} {a : Aggregate} (hNew : a.Credible)
    (hFits : Fits t.size (Listing.gather name a t.stations)) : Takes t name a := by
  constructor
  · exact h.inRange_of_countOf_lt hCredible hNew (hFits.counts name)
  · intro hAbsent
    have hLength := hFits.length_le
    rw [Listing.gather_of_not_mem hAbsent, List.length_append, List.length_singleton,
      length_stations] at hLength
    exact hLength

/-- The table has no room for the station, which is new to it. -/
def TurnsAway (t : Table hash) (name : List UInt8) : Prop := name ∉ t.names ∧ t.length = t.capacity

theorem Valid.not_turnsAway_iff (h : Valid t) {name : List UInt8} :
    ¬ t.TurnsAway name ↔ name ∈ t.names ∨ t.length < t.capacity := by
  rw [TurnsAway, not_and_or, not_not, h.length_le.lt_iff_ne]

/-- All that adding readings can do whose sums fit: they are gathered, or the station is turned away
and the table stays as it was. -/
theorem Valid.absorb_cases (h : Valid t) {name : List UInt8} {a : Aggregate}
    (hShort : name.length ≤ keyBytes)
    (hRange : ∀ station ∈ t.stations, station.name = name → (station.aggregate.join a).InRange)
    (hPositions : Word.countFor keyBytes * t.capacity ≤ UInt32.size) :
    (¬ t.TurnsAway name ∧
      ∃ t', absorb (Key.packed name) (hash (Key.pack name)) a t = .ok () t' ∧ Gathers name a t t') ∨
    t.TurnsAway name ∧ absorb (Key.packed name) (hash (Key.pack name)) a t =
      .error (.tableFull t.capacity) t := by
  by_cases hAway : t.TurnsAway name
  · refine Or.inr ⟨hAway, ?_⟩
    rw [absorb, h.find?_eq_none hAway.1]
    exact if_neg hAway.2.not_lt
  · refine Or.inl ⟨hAway, ?_⟩
    have hRoom : name ∉ t.names → t.length < t.capacity :=
      (h.not_turnsAway_iff.mp hAway).resolve_left
    apply h.absorb_of_takes ⟨hRange, hRoom⟩ hShort
    -- There is one position less to come than there is room, and no name takes more
    -- words than the longest.
    intro hNew
    have hNames : ∀ other ∈ t.names ++ [name], other.length ≤ keyBytes := by
      intro other hOther
      rcases List.mem_append.mp hOther with hOld | hHere
      · exact h.short_of_mem_names hOld
      · exact List.mem_singleton.mp hHere ▸ hShort
    have hWords := wordsOf_le hNames
    rw [wordsOf_append, List.length_append, length_names] at hWords
    apply hasPositionFor_of_le
    rw [h.keys_size]
    exact hWords.trans ((Nat.mul_le_mul_left _ (Nat.succ_le_of_lt (hRoom hNew))).trans hPositions)

/-- If the merged listing fits, everything is added. -/
theorem Valid.exists_absorbEach (h : Valid t) (hCredible : ∀ station ∈ t.stations,
    station.aggregate.Credible)
    {stations : List Station} (hShort : ∀ station ∈ stations, station.name.length ≤ keyBytes)
    (hNew : ∀ station ∈ stations, station.aggregate.Credible)
    (hFits : Fits t.size (Listing.merge t.stations stations)) :
    ∃ t', absorbEach stations t = .ok () t' ∧ Valid t' ∧
      t'.stations = Listing.merge t.stations stations ∧
      t'.size = t.size := by
  induction stations generalizing t with
  | nil => exact ⟨t, rfl, h, rfl, rfl⟩
  | cons station rest ih =>
      rw [List.forall_mem_cons] at hShort hNew
      rw [Listing.merge_cons] at hFits
      have hStep : Fits t.size (Listing.gather station.name station.aggregate t.stations) :=
        hFits.of_merge fun other hOther => (hNew.2 other hOther).count_pos.le
      have hTakes := h.takes_of_fits hCredible hNew.1 hStep
      obtain ⟨between, hFirst, hGathers⟩ := h.absorb_of_takes hTakes hShort.1 fun hAbsent => by
        have hWords := hStep.words
        rw [Listing.gather_of_not_mem hAbsent, Listing.names_append, wordsOf_append] at hWords
        apply hasPositionFor_of_le
        rw [h.keys_size]
        exact hWords
      have hStill := hGathers.forall_mem Aggregate.Credible.join hNew.1 hCredible
      rw [← hGathers.size, ← hGathers.stations] at hFits
      obtain ⟨t', hRest, hValid, hStations, hSize⟩ := ih hGathers.valid hStill hShort.2 hNew.2 hFits
      exact ⟨t', absorbEach_cons_ok_iff.mpr ⟨between, hFirst, hRest⟩, hValid,
        by rw [hStations, hGathers.stations, Listing.merge_cons], hSize.trans hGathers.size⟩

theorem Sound.credible (h : Sound t) : ∀ station ∈ t.stations, station.aggregate.Credible :=
  fun station hStation => (h.bounded station hStation).credible

theorem Sound.of_gathers (h : Sound t) {name : List UInt8} {a : Aggregate} (hBounded : a.Bounded)
    (hGathers : Gathers name a t t') : Sound t' where
  toValid := hGathers.valid
  bounded := hGathers.forall_mem Aggregate.Bounded.join hBounded h.bounded

end Table

end StationStats
