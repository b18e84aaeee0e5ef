import StationStats.Proofs.Row.Acceptance

/-!
What a table refuses. One that came about refuses a reading only if it has no room for
another station, or if a count has come to the end of its field, as it does after 2³¹ - 1
readings of one station.
-/

namespace StationStats

namespace Table

variable {hash : KeyHash} {t t' : Table hash}

/-- Why a table refuses a reading: there is no room for its station, or the count of the station is
at the end of its field. -/
inductive Refuses (t : Table hash) (key : Key) : Fault → Prop where
  | full (hNew : t.find? key (hash key.words) = none) (hFull : t.capacity ≤ t.length) :
      Refuses t key (.tableFull t.capacity)
  | exhausted {i : Nat} {entry : Entry} (hFound : t.find? key (hash key.words) = some i)
      (hAt : t.entries[i]? = some entry) (hCount : 2 ^ 31 ≤ entry.aggregate.count + 1) :
      Refuses t key .overflow

theorem Bounded.refuses_of_add_error (h : Bounded t) {key : Key} {value : Int}
    (hValue : value.natAbs ≤ 999) {fault : Fault} (hRefused : add key value t = .error fault t') :
    t' = t ∧ Refuses t key fault := by
  obtain ⟨rfl, ⟨rfl, hNew, hFull⟩ | ⟨rfl, i, entry, hFound, hAt, hWide⟩⟩ :=
    absorb_error_cases hRefused
  · exact ⟨rfl, .full hNew hFull⟩
  · refine ⟨rfl, .exhausted hFound hAt ?_⟩
    -- As long as the count fits, the sum of so many readings does.
    have hBounded := (h entry (Array.mem_of_getElem? hAt)).join (Aggregate.bounded_single hValue)
    by_contra hFew
    exact hWide (hBounded.credible.inRange (not_le.mp hFew))

/-- Observations are added up to one that the table refuses, for the reason it has then. -/
inductive Refused (t : Table hash) (fault : Fault) (t' : Table hash) : List Observation → Prop where
  | mk {before after : List Observation} {o : Observation}
      (hBefore : observeAll before t = .ok () t')
      (hRefused : observe o t' = .error fault t') (hReason : Refuses t' (Key.packed o.name) fault) :
      Refused t fault t' (before ++ o :: after)

theorem Refused.observeAll_eq {fault : Fault} {observations : List Observation}
    (h : Refused t fault t' observations) : observeAll observations t = .error fault t' := by
  cases h with
  | mk hBefore hRefused => exact observeAll_append_eq_error hBefore hRefused

/-- Observations of rows are all added, or the table that one of them comes to refuses it. -/
theorem Bounded.observeAll_cases (h : Bounded t) {observations : List Observation}
    (hObservations : ∀ o ∈ observations, o.name.length ≤ longestName ∧ o.tenths.natAbs ≤ 999) :
    (∃ t', observeAll observations t = .ok () t') ∨
      ∃ fault t', Refused t fault t' observations := by
  induction observations generalizing t with
  | nil => exact Or.inl ⟨t, rfl⟩
  | cons o rest ih =>
      obtain ⟨⟨hLength, hTenths⟩, hRest⟩ := List.forall_mem_cons.mp hObservations
      have hObserve := observe_eq (hLength.trans longestName_lt.le) t
      cases hAdded : add (Key.packed o.name) o.tenths t with
      | error fault t' =>
          obtain ⟨rfl, hReason⟩ := h.refuses_of_add_error hTenths hAdded
          have hNone : observeAll [] t' = .ok () t' := rfl
          exact Or.inr ⟨fault, t', .mk hNone (hObserve.trans hAdded) hReason⟩
      | ok u between =>
          have hFirst := hObserve.trans hAdded
          rcases ih (h.absorb (Aggregate.bounded_single hTenths) hAdded) hRest with
            ⟨t', hAll⟩ | ⟨fault, t', hLater⟩
          · exact Or.inl ⟨t', observeAll_cons_ok_iff.mpr ⟨between, hFirst, hAll⟩⟩
          · cases hLater with
            | mk hBefore hRefused hReason =>
                have hMore := observeAll_cons_ok_iff.mpr ⟨between, hFirst, hBefore⟩
                exact Or.inr ⟨fault, t', .mk hMore hRefused hReason⟩

end Table

/-! ### A count at the end of its field -/

/-- A row with a name of one byte. -/
theorem isRow_one_byte : IsRow ([97] ++ separator :: [49, point, 48]) ⟨[97], 10⟩ :=
  .mk (by decide) (by decide) (by decide) (.unsigned (.short (by decide) (by decide)))

/-- The text of some rows, each with its line feed. -/
theorem reads_flatten {rows : List (List UInt8)} {observations : List Observation}
    (hRows : List.Forall₂ IsRow rows observations) :
    Terminated (rows.map (· ++ [lineFeed])).flatten ∧
      Reads (rows.map (· ++ [lineFeed])).flatten observations := by
  have hLines : ∀ line ∈ rows, lineFeed ∉ line := by
    intro line hLine
    obtain ⟨o, hRow⟩ := exists_forall₂_iff.mp ⟨observations, hRows⟩ line hLine
    exact hRow.lineFeed_not_mem
  obtain ⟨hTerminated, hText⟩ := lines_flatten hLines
  exact ⟨hTerminated, by rwa [Reads, hText]⟩

/-- Observations that can stand in rows make up a text. -/
theorem exists_text_of_rows {observations : List Observation}
    (hRows : ∀ o ∈ observations, ∃ line, IsRow line o) :
    ∃ text, Terminated text ∧ Reads text observations := by
  obtain ⟨rows, hRows⟩ := exists_forall₂_iff.mpr hRows
  exact ⟨_, reads_flatten hRows.flip⟩

/-- A text of the same row again and again. -/
theorem reads_replicate {line : List UInt8} {o : Observation} (hRow : IsRow line o) (n : Nat) :
    Terminated (List.replicate n (line ++ [lineFeed])).flatten ∧
      Reads (List.replicate n (line ++ [lineFeed])).flatten (List.replicate n o) := by
  have hRows : List.Forall₂ IsRow (List.replicate n line) (List.replicate n o) := by
    induction n with
    | zero => exact .nil
    | succ n ih => exact .cons hRow ih
  have hText : (List.replicate n line).map (· ++ [lineFeed]) =
      List.replicate n (line ++ [lineFeed]) := List.map_replicate
  rw [← hText]
  exact reads_flatten hRows

/-- The listing after some readings of the same value of one station alone. -/
theorem Listing.replay_replicate (o : Observation) (n : Nat) :
    replay (List.replicate (n + 1) o) [] =
      [{ name := o.name
         aggregate := {
           sum := (n + 1) * o.tenths
           count := n + 1
           least := o.tenths
           greatest := o.tenths } }] := by
  induction n with
  | zero => simp [replay, merge, gather, Observation.station, Aggregate.single]
  | succ n ih =>
      rw [List.replicate_succ', replay_append, ih]
      simp only [replay, merge, List.map_cons, List.map_nil, List.foldl_cons, List.foldl_nil,
        gather, if_pos, Observation.station, Aggregate.join, Aggregate.single, min_self, max_self]
      congr 3
      push_cast
      ring

namespace Table

/-- A text with the slack behind it is a range of rows. -/
theorem exists_rows_of_text (text : List UInt8) :
    ∃ (rows : Bytes) (len : Nat), len + slack ≤ rows.size ∧ rows.toList.take len = text := by
  refine ⟨(text ++ List.replicate slack 0).toArray, text.length, ?_, List.take_left⟩
  simp

/-- Rows for which there is room lead to a table that lists their observations behind its own
stations. -/
theorem Regular.exists_addRows {hash : KeyHash} {t : Table hash} (h : Regular t)
    (hCapacity : t.capacity ≤ 294594427) {text : List UInt8} {observations : List Observation}
    (hTerminated : Terminated text) (hReads : Reads text observations)
    (hRoom : RoomFor t (observations.map Observation.name)) :
    ∃ (rows : Bytes) (len : Nat) (t' : Table hash), addRows rows len t = .ok () t' ∧
      observeAll observations t = .ok () t' ∧ Regular t' ∧
      t'.stations = Listing.replay observations t.stations ∧ t'.size = t.size := by
  obtain ⟨t', hAdded, hStations⟩ :=
    h.exists_observeAll_of_capacity hCapacity hReads.forall_mem hRoom
  obtain ⟨hRegular, -, hSize⟩ := h.of_observeAll hCapacity hReads.forall_mem hAdded
  obtain ⟨rows, len, hSlack, rfl⟩ := exists_rows_of_text text
  have hRows : addRows rows len t = .ok () t' :=
    (addRows_ok_iff hSlack hTerminated).mpr ⟨_, hReads, hAdded⟩
  exact ⟨_, _, t', hRows, hAdded, hRegular, hStations, hSize⟩

/-- A small table has room for any number of readings of one station below 2³¹. -/
theorem roomFor_replicate (hash : KeyHash) (o : Observation) {n : Nat} (hFew : n + 1 < 2 ^ 31) :
    RoomFor (ofSize ⟨9, 0x38e38e39, 1⟩ : Table hash)
      ((List.replicate (n + 1) o).map Observation.name) := by
  rw [List.map_replicate]
  apply roomFor_ofSize
  · rw [List.replicate_dedup n.succ_ne_zero]
    exact (by decide : 1 ≤ 9)
  · rwa [List.length_replicate]

/-- A small table comes about that holds one station with any number of readings below 2³¹. -/
theorem exists_reached_replicate {line : List UInt8} {o : Observation} (hRow : IsRow line o)
    {n : Nat} (hFew : n + 1 < 2 ^ 31) :
    ∃ t : Table KeyHash.fnv1a, Reached t ∧ Regular t ∧
      t.stations = Listing.replay (List.replicate (n + 1) o) [] := by
  have hStart : (withCapacity 9 : Except Fault (Table KeyHash.fnv1a)) =
    .ok (ofSize ⟨9, 0x38e38e39, 1⟩) := rfl
  obtain ⟨hTerminated, hReads⟩ := reads_replicate hRow (n + 1)
  obtain ⟨rows, len, t, hRows, -, hRegular, hStations, -⟩ :=
    (regular_of_withCapacity hStart).exists_addRows (by decide) hTerminated hReads
      (roomFor_replicate _ o hFew)
  rw [stations_ofSize] at hStations
  exact ⟨t, stateAfter_of_ok hRows ▸ (Reached.start hStart).rows rows len, hRegular, hStations⟩

/-- A table comes about that refuses a reading because of its count. -/
theorem exists_reached_exhausted :
    ∃ t : Table KeyHash.fnv1a, Reached t ∧
      t.stations =
        [⟨[97], { sum := 21474836470, count := 2147483647, least := 10, greatest := 10 }⟩] ∧
      observe ⟨[97], 10⟩ t = .error .overflow t := by
  obtain ⟨t, hReached, hRegular, hStations⟩ :=
    exists_reached_replicate isRow_one_byte (show 2147483646 + 1 < 2 ^ 31 by decide)
  rw [Listing.replay_replicate] at hStations
  refine ⟨t, hReached, by simpa using hStations, ?_⟩
  rw [observe_eq (by decide), add, Key.words_packed]
  have hListed := hStations ▸ List.mem_singleton_self _
  exact hRegular.absorb_listed_eq_error hListed (by decide)

end Table

end StationStats
