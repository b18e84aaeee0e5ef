import Mathlib.Data.List.Dedup
import Mathlib.Data.List.Induction
import StationStats.Proofs.Row.Format
import StationStats.Proofs.Station.Aggregate
import StationStats.Station.Table

/-!
Listings of stations, and what adding readings and merging mean for them without slots,
chains or keys. A listing that is put together from the listings of two parts says what the
listing of the whole says.
-/

namespace StationStats

/-- The station that one observation is about, with the aggregate of its reading alone. -/
def Observation.station (o : Observation) :
    Station := { name := o.name, aggregate := Aggregate.single o.tenths }

namespace Listing

/-- The names of the stations, in the order of the listing. -/
def names (stations : List Station) : List (List UInt8) := stations.map Station.name

/-- Adds the readings behind an aggregate to those of a station, which is put at
the end if it is new. -/
def gather (name : List UInt8) (a : Aggregate) : List Station → List Station
  | [] => [{ name, aggregate := a }]
  | station :: rest =>
    if station.name = name then { station with aggregate := station.aggregate.join a } :: rest
    else station :: gather name a rest

/-- Adds the readings behind all stations of another listing, in which a station
may stand repeatedly. -/
def merge (stations other : List Station) : List Station :=
  other.foldl (fun stations station => gather station.name station.aggregate stations) stations

/-- Adds observations one after the other. -/
def replay (observations : List Observation) (stations : List Station) : List Station :=
  merge stations (observations.map Observation.station)

/-- The readings of a station that a listing counts. -/
def countOf (name : List UInt8) (stations : List Station) : Int :=
  ((stations.filter fun station => station.name = name).map fun station =>
    station.aggregate.count).sum

variable {name : List UInt8} {a : Aggregate} {stations : List Station}

@[simp] theorem names_nil : names [] = [] := rfl

@[simp] theorem names_cons (station : Station) :
    names (station :: stations) = station.name :: names stations :=
  rfl

@[simp] theorem names_append (first second : List Station) :
    names (first ++ second) = names first ++ names second :=
  List.map_append

theorem names_gather :
    names (gather name a stations) =
      if name ∈ names stations then names stations else names stations ++ [name] := by
  induction stations with
  | nil => simp [gather]
  | cons station rest ih =>
      by_cases hHere : station.name = name
      · simp [gather, hHere]
      · have hOther : name ≠ station.name := fun hEq => hHere hEq.symm
        by_cases hMem : name ∈ names rest <;> simp [gather, hHere, ih, hMem, hOther]

theorem mem_names_gather {other : List UInt8} :
    other ∈ names (gather name a stations) ↔ other = name ∨ other ∈ names stations := by
  rw [names_gather]
  split
  · rename_i hMem
    exact ⟨Or.inr, by rintro (rfl | hOther) <;> assumption⟩
  · simp [or_comm]

theorem nodup_names_gather (h : (names stations).Nodup) :
    (names (gather name a stations)).Nodup := by
  rw [names_gather]
  split
  · exact h
  · rename_i hNew
    rw [← List.concat_eq_append]
    exact h.concat hNew

/-- A new station comes last. -/
theorem gather_of_not_mem (h : name ∉ names stations) :
    gather name a stations = stations ++ [{ name, aggregate := a }] := by
  induction stations with
  | nil => rfl
  | cons station rest ih =>
      rw [names_cons, List.mem_cons, not_or] at h
      rw [gather, if_neg fun hEq => h.1 hEq.symm, ih h.2, List.cons_append]

/-- A listed station stays in its place. -/
theorem gather_of_getElem? {i : Nat} {station : Station} (hDistinct : (names stations).Nodup)
    (hAt : stations[i]? = some station) :
    gather station.name a stations =
      stations.set i { name := station.name, aggregate := station.aggregate.join a } := by
  induction stations generalizing i with
  | nil => simp at hAt
  | cons first rest ih =>
      rw [names_cons, List.nodup_cons] at hDistinct
      cases i with
      | zero =>
          rw [List.getElem?_cons_zero, Option.some_inj] at hAt
          subst hAt
          rw [gather, if_pos rfl, List.set_cons_zero]
      | succ i =>
          rw [List.getElem?_cons_succ] at hAt
          have hOther : first.name ≠ station.name := by
            intro hEq
            exact hDistinct.1 (hEq ▸ List.mem_map_of_mem (List.mem_of_getElem? hAt))
          rw [gather, if_neg hOther, ih hDistinct.2 hAt, List.set_cons_succ]

/-- Readings added to the same station twice are added together. -/
theorem gather_gather (b : Aggregate) :
    gather name b (gather name a stations) = gather name (a.join b) stations := by
  induction stations with
  | nil => simp [gather]
  | cons station rest ih =>
      by_cases hHere : station.name = name
      · simp [gather, hHere, Aggregate.join_assoc]
      · simp [gather, hHere, ih]

/-- Adding to a station that is listed already can wait until another station is added to. -/
theorem gather_comm {other : List UInt8} (b : Aggregate) (hListed : name ∈ names stations) :
    gather name a (gather other b stations) = gather other b (gather name a stations) := by
  by_cases hSame : name = other
  · subst hSame
    rw [gather_gather, gather_gather, Aggregate.join_comm]
  · induction stations with
    | nil => simp at hListed
    | cons station rest ih =>
        by_cases hName : station.name = name
        · have hOther : station.name ≠ other := fun hEq => hSame (hName.symm.trans hEq)
          simp [gather, hName, hSame]
        · have hRest : name ∈ names rest := by
            rcases List.mem_cons.mp hListed with hEq | hRest
            · exact absurd hEq.symm hName
            · exact hRest
          by_cases hOther : station.name = other
          · simp [gather, hOther, Ne.symm hSame]
          · simp [gather, hName, hOther, ih hRest]

/-- Adding to a listed station can wait until a whole listing is merged. -/
theorem merge_gather_of_mem (other : List Station) (hListed : name ∈ names stations) :
    merge (gather name a stations) other = gather name a (merge stations other) := by
  induction other generalizing stations with
  | nil => rfl
  | cons station rest ih =>
      have hStill : name ∈ names (gather station.name station.aggregate stations) :=
        mem_names_gather.mpr (Or.inr hListed)
      calc merge (gather name a stations) (station :: rest)
          = merge (gather station.name station.aggregate (gather name a stations)) rest := rfl
        _ = merge (gather name a (gather station.name station.aggregate stations)) rest := by
            rw [gather_comm station.aggregate hListed]
        _ = gather name a (merge stations (station :: rest)) := ih hStill

/-- What is added to a part before it is merged could have been added afterwards. -/
theorem merge_gather (other : List Station) :
    merge stations (gather name a other) = gather name a (merge stations other) := by
  induction other generalizing stations with
  | nil => rfl
  | cons station rest ih =>
      by_cases hHere : station.name = name
      · subst hHere
        calc merge stations (gather station.name a (station :: rest))
            = merge (gather station.name (station.aggregate.join a) stations) rest := by
              rw [gather, if_pos rfl]
              rfl
          _ = merge
              (gather station.name a (gather station.name station.aggregate stations)) rest := by
              rw [gather_gather]
          _ = gather station.name a (merge stations (station :: rest)) :=
              merge_gather_of_mem rest (mem_names_gather.mpr (Or.inl rfl))
      · rw [gather, if_neg hHere]
        exact ih

@[simp] theorem merge_nil : merge stations [] = stations := rfl

@[simp] theorem merge_cons (station : Station) (rest : List Station) :
    merge stations (station :: rest) =
      merge (gather station.name station.aggregate stations) rest := rfl

theorem merge_append (first second : List Station) :
    merge stations (first ++ second) = merge (merge stations first) second :=
  List.foldl_append

/-- Merging a merged listing is merging its parts one after the other. -/
theorem merge_merge (first second : List Station) :
    merge stations (merge first second) = merge (merge stations first) second := by
  induction second generalizing first with
  | nil => rfl
  | cons station rest ih => rw [merge_cons, merge_cons, ih, merge_gather]

/-- Merging what observations amount to is adding these observations, to the same places. -/
theorem merge_replay (observations : List Observation) :
    merge stations (replay observations []) = replay observations stations := by
  rw [replay, merge_merge, merge_nil, replay]

theorem replay_append (before after : List Observation) :
    replay (before ++ after) stations = replay after (replay before stations) := by
  rw [replay, List.map_append, merge_append, replay, replay]

/-! ### What is kept of a listing -/

/-- A property of all stations that joining aggregates keeps. -/
theorem forall_mem_gather {P : Station → Prop}
    (hJoin : ∀ station ∈ stations, station.name = name →
      P { name := station.name, aggregate := station.aggregate.join a })
    (hNew : P { name, aggregate := a }) (hAll : ∀ station ∈ stations, P station) :
    ∀ station ∈ gather name a stations, P station := by
  induction stations with
  | nil => simpa [gather] using hNew
  | cons first rest ih =>
      rw [List.forall_mem_cons] at hJoin hAll
      rw [gather]
      split
      · rename_i hHere
        exact List.forall_mem_cons.mpr ⟨hJoin.1 hHere, hAll.2⟩
      · exact List.forall_mem_cons.mpr ⟨hAll.1, ih hJoin.2 hAll.2⟩

/-- A station of the listing afterwards is an old one, the one that was added to, or the new one. -/
theorem cases_of_mem_gather (hDistinct : (names stations).Nodup) {station : Station}
    (hMem : station ∈ gather name a stations) :
    station ∈ stations ∧ station.name ≠ name ∨
      (∃ old ∈ stations, old.name = name ∧ station = { name, aggregate := old.aggregate.join a }) ∨
        name ∉ names stations ∧ station = { name, aggregate := a } := by
  induction stations with
  | nil => exact Or.inr (Or.inr ⟨by simp, List.mem_singleton.mp hMem⟩)
  | cons first rest ih =>
      rw [names_cons, List.nodup_cons] at hDistinct
      rw [gather] at hMem
      by_cases hHere : first.name = name
      · rw [if_pos hHere, List.mem_cons] at hMem
        rcases hMem with rfl | hRest
        · exact Or.inr (Or.inl ⟨first, List.mem_cons_self, hHere, by rw [hHere]⟩)
        · refine Or.inl ⟨List.mem_cons_of_mem first hRest, fun hName => hDistinct.1 ?_⟩
          rw [hHere, ← hName]
          exact List.mem_map_of_mem hRest
      · rw [if_neg hHere, List.mem_cons] at hMem
        rcases hMem with rfl | hRest
        · exact Or.inl ⟨List.mem_cons_self, hHere⟩
        · rcases ih hDistinct.2 hRest with ⟨hOld, hName⟩ | ⟨old, hOld, hJoined⟩ | ⟨hNew, hStation⟩
          · exact Or.inl ⟨List.mem_cons_of_mem first hOld, hName⟩
          · exact Or.inr (Or.inl ⟨old, List.mem_cons_of_mem first hOld, hJoined⟩)
          · refine Or.inr (Or.inr ⟨?_, hStation⟩)
            rw [names_cons, List.mem_cons, not_or]
            exact ⟨fun hName => hHere hName.symm, hNew⟩

theorem nodup_names_merge (other : List Station) (h : (names stations).Nodup) :
    (names (merge stations other)).Nodup := by
  induction other generalizing stations with
  | nil => exact h
  | cons station rest ih => exact ih (nodup_names_gather h)

theorem mem_names_merge {other : List Station} {name : List UInt8} :
    name ∈ names (merge stations other) ↔ name ∈ names stations ∨ name ∈ names other := by
  induction other generalizing stations with
  | nil => simp
  | cons station rest ih =>
      rw [merge_cons, ih, mem_names_gather, names_cons, List.mem_cons]
      tauto

/-- Merging into a listing with no station twice leaves every name once. -/
theorem names_merge_perm (other : List Station) (h : (names stations).Nodup) :
    (names (merge stations other)).Perm (names stations ++ names other).dedup := by
  rw [List.perm_ext_iff_of_nodup (nodup_names_merge other h) (List.nodup_dedup _)]
  intro name
  rw [mem_names_merge, List.mem_dedup, List.mem_append]

theorem length_merge (other : List Station) (h : (names stations).Nodup) :
    (merge stations other).length = (names stations ++ names other).dedup.length := by
  rw [← (names_merge_perm other h).length_eq, names, List.length_map]

/-- The stations of observations, by name. -/
theorem names_observations (observations : List Observation) :
    names (observations.map Observation.station) = observations.map Observation.name := by
  rw [names, List.map_map]
  rfl

/-! ### Counts -/

theorem countOf_cons (station : Station) (rest : List Station) :
    countOf name (station :: rest) =
      (if station.name = name then station.aggregate.count else 0) + countOf name rest := by
  by_cases hHere : station.name = name <;> simp [countOf, hHere]

theorem countOf_gather (other : List UInt8) :
    countOf other (gather name a stations) =
      countOf other stations + if name = other then a.count else 0 := by
  induction stations with
  | nil => by_cases hHere : name = other <;> simp [gather, countOf, hHere]
  | cons station rest ih =>
      rw [gather]
      split
      · rename_i hHere
        simp only [countOf_cons, Aggregate.join, hHere]
        split <;> omega
      · rw [countOf_cons, countOf_cons, ih, Int.add_assoc]

/-- A station that is not there twice is counted for itself. -/
theorem countOf_of_mem (hDistinct : (names stations).Nodup) {station : Station}
    (hMem : station ∈ stations) :
    countOf station.name stations = station.aggregate.count := by
  induction stations with
  | nil => simp at hMem
  | cons first rest ih =>
      rw [names_cons, List.nodup_cons] at hDistinct
      rcases List.mem_cons.mp hMem with rfl | hRest
      · have hNone : (rest.filter fun other => other.name = station.name) = [] := by
          rw [List.filter_eq_nil_iff]
          intro other hOther hEq
          rw [decide_eq_true_eq] at hEq
          exact hDistinct.1 (hEq ▸ List.mem_map_of_mem hOther)
        rw [countOf_cons, if_pos rfl, countOf, hNone, List.map_nil, List.sum_nil, Int.add_zero]
      · have hOther : first.name ≠ station.name := by
          intro hEq
          exact hDistinct.1 (hEq ▸ List.mem_map_of_mem hRest)
        rw [countOf_cons, if_neg hOther, ih hDistinct.2 hRest, Int.zero_add]

theorem countOf_merge (other : List Station) (name : List UInt8) :
    countOf name (merge stations other) = countOf name stations + countOf name other := by
  induction other generalizing stations with
  | nil => simp [countOf]
  | cons station rest ih => rw [merge_cons, ih, countOf_gather, countOf_cons, Int.add_assoc]

theorem countOf_nonneg (h : ∀ station ∈ stations, 0 ≤ station.aggregate.count) :
    0 ≤ countOf name stations := by
  induction stations with
  | nil => exact le_rfl
  | cons station rest ih =>
      rw [List.forall_mem_cons] at h
      have hRest := ih h.2
      rw [countOf_cons]
      split <;> omega

/-- Each observation of a station counts once. -/
theorem countOf_observations (observations : List Observation) (name : List UInt8) :
    countOf name (observations.map Observation.station) =
      (observations.map Observation.name).count name := by
  induction observations with
  | nil => rfl
  | cons o rest ih =>
      rw [List.map_cons, countOf_cons, ih, List.map_cons, List.count_cons, Int.natCast_add,
        Int.add_comm]
      by_cases hHere : o.name = name <;> simp [Observation.station, Aggregate.single, hHere]

/-! ### Readings -/

/-- The readings of a station among some observations, in their order. -/
def readingsOf (observations : List Observation) (name : List UInt8) : List Int :=
  (observations.filter fun o => o.name = name).map Observation.tenths

theorem readingsOf_append (before after : List Observation) (name : List UInt8) :
    readingsOf (before ++ after) name = readingsOf before name ++ readingsOf after name := by
  rw [readingsOf, List.filter_append, List.map_append, readingsOf, readingsOf]

theorem readingsOf_singleton (o : Observation) (name : List UInt8) :
    readingsOf [o] name = if o.name = name then [o.tenths] else [] := by
  by_cases hHere : o.name = name <;> simp [readingsOf, hHere]

theorem readingsOf_eq_nil {observations : List Observation}
    (h : name ∉ observations.map Observation.name) :
    readingsOf observations name = [] := by
  rw [readingsOf, List.map_eq_nil_iff, List.filter_eq_nil_iff]
  intro o ho hName
  rw [decide_eq_true_eq] at hName
  exact h (hName ▸ List.mem_map_of_mem ho)

/-- The listing has each station of the observations once, with the aggregate of its readings. -/
structure Tallies (observations : List Observation) (stations : List Station) : Prop where
  distinct : (names stations).Nodup
  mem_names : ∀ name, name ∈ names stations ↔ name ∈ observations.map Observation.name
  summarises :
    ∀ station ∈ stations, station.aggregate.Summarises (readingsOf observations station.name)

theorem Tallies.gather {observations : List Observation} (h : Tallies observations stations)
    (o : Observation) :
    Tallies (observations ++ [o]) (gather o.name (Aggregate.single o.tenths) stations) where
  distinct := nodup_names_gather h.distinct
  mem_names name := by
    rw [mem_names_gather, h.mem_names, List.map_append, List.mem_append, List.map_singleton,
      List.mem_singleton, or_comm]
  summarises station hStation := by
    rw [readingsOf_append, readingsOf_singleton]
    rcases cases_of_mem_gather h.distinct hStation with
      ⟨hOld, hOther⟩ | ⟨old, hOld, hName, rfl⟩ | ⟨hNew, rfl⟩
    · rw [if_neg hOther.symm, List.append_nil]
      exact h.summarises station hOld
    · rw [if_pos rfl, ← hName]
      exact (h.summarises old hOld).join (Aggregate.summarises_single o.tenths)
    · rw [if_pos rfl, readingsOf_eq_nil (mt (h.mem_names o.name).mpr hNew)]
      exact Aggregate.summarises_single o.tenths

/-- Observations that are added one after the other are tallied. -/
theorem tallies_replay (observations : List Observation) :
    Tallies observations (replay observations []) := by
  induction observations using List.reverseRecOn with
  | nil => exact ⟨List.nodup_nil, fun name => Iff.rfl, by simp [replay]⟩
  | append_singleton before o ih =>
      rw [replay_append]
      exact ih.gather o

/-- The order of the observations does not matter. -/
theorem Tallies.of_perm {observations others : List Observation} (h : Tallies observations stations)
    (hPerm : observations.Perm others) : Tallies others stations where
  distinct := h.distinct
  mem_names name := (h.mem_names name).trans (hPerm.map Observation.name).mem_iff
  summarises station hStation := (h.summarises station hStation).of_perm ((hPerm.filter _).map _)

theorem Tallies.mem_of_mem {observations : List Observation} {others : List Station}
    (h : Tallies observations stations) (hOthers : Tallies observations others) {station : Station}
    (hStation : station ∈ stations) : station ∈ others := by
  have hName : station.name ∈ names others :=
    (hOthers.mem_names _).mpr ((h.mem_names _).mp (List.mem_map_of_mem hStation))
  obtain ⟨other, hOther, hSame⟩ := List.mem_map.mp hName
  have hAggregate : other.aggregate = station.aggregate := by
    refine (hOthers.summarises other hOther).unique ?_
    rw [hSame]
    exact h.summarises station hStation
  have hEq : other = station := by
    cases other
    cases station
    exact congrArg₂ Station.mk hSame hAggregate
  exact hEq ▸ hOther

/-- Two tallies of the same observations differ only in order. -/
theorem Tallies.perm {observations : List Observation} {others : List Station}
    (h : Tallies observations stations) (hOthers : Tallies observations others) :
    stations.Perm others :=
  (List.perm_ext_iff_of_nodup h.distinct.of_map hOthers.distinct.of_map).mpr fun _ =>
    ⟨h.mem_of_mem hOthers, hOthers.mem_of_mem h⟩

end Listing

end StationStats
