import StationStats.Proofs.Station.Merge

/-!
A table that is called with one observation after another, whether or not it takes them. Such
a table is the finite map of the stations in the order in which they first came, cut off where
it is full: it refuses just the calls that bring a new station to a full table, and a refused
call changes nothing. No property of the hash is used, so nothing is lost to collisions, be
they as many as they may.
-/

namespace StationStats.Table

variable {hash : KeyHash} {calls : List Observation} {o : Observation} {t t' : Table hash}

/-- The table after a call with each observation, taken or refused. -/
def offerAll (calls : List Observation) (t : Table hash) : Table hash :=
  calls.foldl (fun t o => stateAfter (observe o) t) t

/-- The different stations of the calls, in the order in which they first came. -/
def firstNames (calls : List Observation) :
    List (List UInt8) := (calls.map Observation.name).eraseDups

/-- The table is the finite map of the calls: it lists the stations that came before it
was full, with the sum, the number and the extremes of all their readings, and what is
got is what is listed. -/
structure Refines (calls : List Observation) (t : Table hash) : Prop where
  names : t.names = (firstNames calls).take t.capacity
  summarises :
    ∀ station ∈ t.stations, station.aggregate.Summarises (Listing.readingsOf calls station.name)
  length : t.length = t.names.length
  listed : ∀ name a, t.get? name = some a ↔ { name, aggregate := a } ∈ t.stations
  absent : ∀ name, name ∉ t.names → t.get? name = none

/-- A table in good order that lists what the calls amount to. -/
structure Follows (calls : List Observation) (t : Table hash) : Prop extends Valid t where
  names : t.names = (firstNames calls).take t.capacity
  summarises :
    ∀ station ∈ t.stations, station.aggregate.Summarises (Listing.readingsOf calls station.name)

theorem Follows.refines (h : Follows calls t) : Refines calls t where
  names := h.names
  summarises := h.summarises
  length := (length_names t).symm
  listed _ _ := h.get?_eq_some_iff
  absent name hAbsent := by
    cases hFound : t.get? name with
    | none => rfl
    | some a => exact absurd (List.mem_map_of_mem (h.get?_eq_some_iff.mp hFound)) hAbsent

theorem follows_ofSize {size : TableSize} (h : size ∈ TableSize.all) :
    Follows [] (ofSize size : Table hash) where
  toValid := valid_ofSize h
  names := by simp [Table.names, stations_ofSize, firstNames]
  summarises := by simp [stations_ofSize]

/-! ### The names -/

theorem firstNames_concat (calls : List Observation) (o : Observation) :
    firstNames (calls ++ [o]) =
      if o.name ∈ firstNames calls then firstNames calls else firstNames calls ++ [o.name] := by
  have hSingle : [o.name].removeAll (calls.map Observation.name) =
      if o.name ∈ firstNames calls then [] else [o.name] := by
    simp only [firstNames, List.mem_eraseDups, List.removeAll, List.filter_cons, List.filter_nil]
    by_cases hOld : o.name ∈ calls.map Observation.name <;> simp [hOld]
  rw [firstNames, List.map_append, List.eraseDups_append, List.map_singleton, hSingle, firstNames]
  split
  · exact List.append_nil _
  · rfl

/-- As long as there is room, all stations that came are listed. -/
theorem Follows.names_of_room (h : Follows calls t) (hRoom : t.length < t.capacity) :
    t.names = firstNames calls := by
  have hLength := congrArg List.length h.names
  rw [length_names, List.length_take] at hLength
  rw [h.names, List.take_of_length_le (by omega)]

/-- A station that is new to a table with room never came before. -/
theorem Follows.readings_eq_nil (h : Follows calls t) (hRoom : t.length < t.capacity)
    (hNew : o.name ∉ t.names) :
    Listing.readingsOf calls o.name = [] := by
  rw [h.names_of_room hRoom, firstNames, List.mem_eraseDups] at hNew
  exact Listing.readingsOf_eq_nil hNew

/-! ### One call -/

/-- A call that is taken. -/
theorem Follows.of_gathers (h : Follows calls t) (hRoom : o.name ∉ t.names → t.length < t.capacity)
    (hGathers : Gathers o.name (Aggregate.single o.tenths) t t') : Follows (calls ++ [o]) t' where
  toValid := hGathers.valid
  names := by
    have hCapacity : t'.capacity = t.capacity := congrArg (·.slots.toNat) hGathers.size
    rw [hCapacity, Table.names, hGathers.stations, Listing.names_gather, ← Table.names,
      firstNames_concat]
    by_cases hListed : o.name ∈ t.names
    · have hCame : o.name ∈ firstNames calls := by
        rw [h.names] at hListed
        exact List.mem_of_mem_take hListed
      rw [if_pos hListed, if_pos hCame, h.names]
    · -- There was room, so nothing had been cut off before, and the name goes to the end.
      have hAll := h.names_of_room (hRoom hListed)
      have hFits : (t.names ++ [o.name]).length ≤ t.capacity := by
        rw [List.length_append, length_names]
        exact hRoom hListed
      rw [if_neg hListed, ← hAll, if_neg hListed, List.take_of_length_le hFits]
  summarises station hStation := by
    rw [hGathers.stations] at hStation
    rw [Listing.readingsOf_append, Listing.readingsOf_singleton]
    rcases Listing.cases_of_mem_gather h.distinct hStation with
      ⟨hOld, hOther⟩ | ⟨old, hOld, hName, rfl⟩ | ⟨hNew, rfl⟩
    · rw [if_neg hOther.symm, List.append_nil]
      exact h.summarises station hOld
    · rw [if_pos rfl, ← hName]
      exact (h.summarises old hOld).join (Aggregate.summarises_single o.tenths)
    · rw [if_pos rfl, h.readings_eq_nil (hRoom hNew) hNew]
      exact Aggregate.summarises_single o.tenths

/-- A call that brings a new station to a full table. -/
theorem Follows.of_full (h : Follows calls t) (hNew : o.name ∉ t.names)
    (hFull : t.length = t.capacity) :
    Follows (calls ++ [o]) t where
  toValid := h.toValid
  names := by
    have hLength := congrArg List.length h.names
    rw [length_names, List.length_take] at hLength
    rw [firstNames_concat, h.names]
    split
    · rfl
    · rw [List.take_append_of_le_length (by omega)]
  summarises station hStation := by
    have hOther : o.name ≠ station.name := fun hName => hNew (hName ▸ List.mem_map_of_mem hStation)
    rw [Listing.readingsOf_append, Listing.readingsOf_singleton, if_neg hOther, List.append_nil]
    exact h.summarises station hStation

/-- All that a call can do: it is taken, or it brings a new station to a full table
and leaves it as it is. -/
theorem Follows.observe_cases (h : Follows calls t) (hCalls : Recordable (calls ++ [o]))
    (hPositions : Word.countFor keyBytes * t.capacity ≤ UInt32.size) :
    (∃ t', observe o t = .ok () t' ∧ Follows (calls ++ [o]) t' ∧ t'.size = t.size ∧
      (o.name ∈ t.names ∨ t.length < t.capacity)) ∨
    observe o t = .error (.tableFull t.capacity) t ∧ Follows (calls ++ [o]) t ∧ o.name ∉ t.names ∧
      t.length = t.capacity := by
  have hShort := (hCalls.each o (List.mem_append_right calls List.mem_cons_self)).short
  have hRange : ∀ station ∈ t.stations, station.name = o.name →
      (station.aggregate.join (Aggregate.single o.tenths)).InRange := by
    intro station hStation hName
    have hSummarises : (station.aggregate.join (Aggregate.single o.tenths)).Summarises
        (Listing.readingsOf (calls ++ [o]) station.name) := by
      rw [Listing.readingsOf_append, Listing.readingsOf_singleton, if_pos hName.symm]
      exact (h.summarises station hStation).join (Aggregate.summarises_single o.tenths)
    exact (hCalls.credible hSummarises).inRange (hCalls.count_lt hSummarises)
  rw [observe_eq hShort, add, Key.words_packed]
  rcases h.absorb_cases hShort hRange hPositions with
    ⟨hTakes, t', hTaken, hGathers⟩ | ⟨hAway, hRefused⟩
  · have hRoom := h.not_turnsAway_iff.mp hTakes
    exact Or.inl ⟨t', hTaken, h.of_gathers hRoom.resolve_left hGathers, hGathers.size, hRoom⟩
  · exact Or.inr ⟨hRefused, h.of_full hAway.1 hAway.2, hAway.1, hAway.2⟩

/-! ### One call after another -/

theorem offerAll_concat (calls : List Observation) (o : Observation) (t : Table hash) :
    offerAll (calls ++ [o]) t = stateAfter (observe o) (offerAll calls t) :=
  List.foldl_concat ..

theorem follows_offerAll (hash : KeyHash) {size : TableSize} (hSize : size ∈ TableSize.all)
    (hPositions : Word.countFor keyBytes * size.slots.toNat ≤ UInt32.size)
    (hCalls : Recordable calls) :
    Follows calls (offerAll calls (ofSize size : Table hash)) ∧
      (offerAll calls (ofSize size : Table hash)).size = size := by
  -- The last call is taken off: the table that it meets follows the calls before it.
  induction calls using List.reverseRecOn with
  | nil => exact ⟨follows_ofSize hSize, rfl⟩
  | append_singleton before o ih =>
      obtain ⟨hFollows, hSame⟩ :=
        ih (hCalls.of_subperm (List.sublist_append_left before [o]).subperm)
      rw [offerAll_concat]
      rcases hFollows.observe_cases hCalls (by rwa [capacity, hSame]) with
        ⟨t', hTaken, hNext, hSize', -⟩ | ⟨hRefused, hNext, -, -⟩
      · rw [stateAfter_of_ok hTaken]
        exact ⟨hNext, hSize'.trans hSame⟩
      · rw [stateAfter_of_error hRefused]
        exact ⟨hNext, hSame⟩

/-- A new table is the finite map of the calls after each of them, whatever the hash. A call fails
exactly if its station is new and the table full, and then the table stays what it was. -/
theorem offerAll_refines {wanted : Nat} (hWanted : wanted ≤ 142069021) (hCalls : Recordable calls) :
    ∃ start : Table hash, withCapacity wanted = .ok start ∧ wanted ≤ start.capacity ∧
      ∀ before, before <+: calls →
        (offerAll before start).capacity = start.capacity ∧ Refines before (offerAll before start) ∧
          ∀ o, before ++ [o] <+: calls → ∀ fault t',
            observe o (offerAll before start) = .error fault t' ↔
              (o.name ∉ (offerAll before start).names ∧
                (offerAll before start).length = start.capacity) ∧
                fault = .tableFull start.capacity ∧ t' = offerAll before start := by
  obtain ⟨size, hSize, -, hStart, hEnough, hPositions⟩ := exists_withCapacity hash hWanted
  refine ⟨ofSize size, hStart, hEnough, fun before hBefore => ?_⟩
  obtain ⟨hFollows, hSame⟩ :=
    follows_offerAll hash hSize hPositions (hCalls.of_subperm hBefore.sublist.subperm)
  have hCapacity : (offerAll before (ofSize size : Table hash)).capacity = size.slots.toNat := by
    rw [capacity, hSame]
  refine ⟨hCapacity, hFollows.refines, fun o hNext fault t' => ?_⟩
  rcases hFollows.observe_cases (hCalls.of_subperm hNext.sublist.subperm) (by rwa [hCapacity]) with
    ⟨after, hTaken, -, -, hRoom⟩ | ⟨hRefused, -, hNew, hFull⟩
  · rw [hTaken]
    constructor
    · intro hError
      cases hError
    · rintro ⟨⟨hNew, hFull⟩, -⟩
      rcases hRoom with hListed | hRoom
      · exact absurd hListed hNew
      · exact absurd (hFull.trans hCapacity.symm) hRoom.ne
  · rw [hRefused, hCapacity]
    constructor
    · intro hError
      cases hError
      exact ⟨⟨hNew, hFull.trans hCapacity⟩, rfl, rfl⟩
    · rintro ⟨-, rfl, rfl⟩
      rfl

/-- Ten names that differ in trailing zeros alone, with the same hash for all of them: nine slots
take the first nine and refuse the last. -/
theorem offerAll_refines_ten_names :
    ∃ start : Table fun _ => 0, withCapacity 9 = .ok start ∧
      observe ⟨List.replicate 9 0, 9⟩
        (offerAll ((List.range 9).map fun n => ⟨List.replicate n 0, n⟩) start) =
        .error (.tableFull 9)
          (offerAll ((List.range 9).map fun n => ⟨List.replicate n 0, n⟩) start) := by
  have hWanted : 9 ≤ 142069021 := by decide
  have hCalls : Recordable ((List.range 10).map fun n => ⟨List.replicate n 0, n⟩) :=
    ⟨by decide, by decide⟩
  have hNine : (List.range 9).map (fun n => (⟨List.replicate n 0, n⟩ : Observation)) ++
      [⟨List.replicate 9 0, 9⟩] = (List.range 10).map fun n => ⟨List.replicate n 0, n⟩ := by decide
  obtain ⟨start, hStart, -, hAll⟩ : ∃ start : Table fun _ => 0, _ := offerAll_refines hWanted hCalls
  obtain rfl : ofSize ⟨9, 0x38e38e39, 1⟩ = start := Except.ok.inj hStart
  obtain ⟨hCapacity, hRefines, hRefused⟩ := hAll _ ⟨_, hNine⟩
  have hNames := hRefines.names
  rw [hCapacity] at hNames
  refine ⟨_, hStart, (hRefused _ (hNine ▸ List.prefix_rfl) _ _).mpr ⟨⟨?_, ?_⟩, rfl, rfl⟩⟩
  · rw [hNames]
    decide
  · rw [hRefines.length, hNames]
    decide

end StationStats.Table
