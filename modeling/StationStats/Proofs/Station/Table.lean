import StationStats.Proofs.Station.Chain
import StationStats.Proofs.Station.Key
import StationStats.Proofs.Station.Listing

/-!
A table in good order is its listing: a station is found exactly if it is listed, and
adding readings to the table adds them to the listing. Slots, chains, hashes and the
array of keys do not show.
-/

namespace StationStats.Table

variable {hash : KeyHash} {t : Table hash}

/-- The names of the stations, in the order in which they first came. -/
def names (t : Table hash) : List (List UInt8) := Listing.names t.stations

/-- The entry has the key of a name, and the hash of that key. -/
structure Stored (t : Table hash) (entry : Entry) : Prop where
  key : t.key entry = Key.packed (t.key entry).name
  short : (t.key entry).name.length ≤ keyBytes
  hashed : entry.hash = hash (t.key entry).words

/-- The table is in good order: the chains are complete, the entries keep their keys, no station is
there twice, and nothing has outgrown its field. -/
structure Valid (t : Table hash) : Prop where
  tabulated : t.size ∈ TableSize.all
  heads_size : t.heads.size = t.capacity
  length_le : t.length ≤ t.capacity
  linked : Linked t.size t.heads t.entries
  stored : ∀ entry ∈ t.entries, Stored t entry
  distinct : t.names.Nodup
  keys_size : t.keys.size = (t.names.map fun name => Word.countFor name.length).sum

/-- A table of a tabulated size without entries is in good order. -/
theorem valid_ofSize {size : TableSize} (h : size ∈ TableSize.all) :
    Valid (ofSize size : Table hash) where
  tabulated := h
  heads_size := Array.size_replicate
  length_le := Nat.zero_le _
  linked := linked_ofSize
  stored entry hEntry := by simp [ofSize] at hEntry
  distinct := by simp [names, stations_ofSize]
  keys_size := by
    rw [names, stations_ofSize]
    rfl

/-- A table for a number of stations starts empty, with a tabulated size that is large enough. -/
theorem exists_ofSize_of_withCapacity {wanted : Nat} (h : withCapacity wanted = .ok t) :
    ∃ size ∈ TableSize.all, wanted ≤ size.slots.toNat ∧ t = ofSize size := by
  rw [withCapacity, TableSize.atLeast] at h
  cases hFound : TableSize.all.find? (wanted ≤ ·.slots.toNat) with
  | none => simp [hFound] at h
  | some size =>
      simp only [hFound] at h
      cases h
      have hEnough := List.find?_some hFound
      exact ⟨size, List.mem_of_find?_eq_some hFound, by simpa using hEnough, rfl⟩

/-! ### Entries and the stations they list -/

theorem getElem?_stations (t : Table hash) (i : Nat) :
    t.stations[i]? =
      t.entries[i]?.map fun entry =>
        { name := (t.key entry).name, aggregate := entry.aggregate } := by
  rw [stations, List.getElem?_map, Array.getElem?_toList]

theorem mem_names_iff {name : List UInt8} :
    name ∈ t.names ↔ ∃ station ∈ t.stations, station.name = name :=
  List.mem_map

theorem mem_stations_of_mem_entries {entry : Entry} (h : entry ∈ t.entries) :
    { name := (t.key entry).name, aggregate := entry.aggregate } ∈ t.stations :=
  List.mem_map_of_mem (Array.mem_toList_iff.mpr h)

theorem mem_names_of_mem_entries {entry : Entry} (h : entry ∈ t.entries) :
    (t.key entry).name ∈ t.names :=
  List.mem_map_of_mem (mem_stations_of_mem_entries h)

theorem length_names (t : Table hash) : t.names.length = t.length := by
  rw [names, Listing.names, List.length_map, length_stations]

theorem words_key (t : Table hash) (entry : Entry) :
    (t.key entry).words = (t.keys.toList.drop entry.keyStart.toNat).take
      (Word.countFor entry.length) := by
  rw [key, Array.toList_extract, List.extract_eq_take_drop, Nat.add_sub_cancel_left]

theorem Stored.hash_eq {entry : Entry} (h : Stored t entry) :
    entry.hash = hash (Key.pack (t.key entry).name) := by
  rw [← Key.words_packed, ← h.key]
  exact h.hashed

theorem Stored.congr {entry : Entry} (h : Stored t entry) {t' : Table hash} {entry' : Entry}
    (hKey : t'.key entry' = t.key entry) (hHash : entry'.hash = entry.hash) : Stored t' entry' :=
  ⟨hKey ▸ h.key, hKey ▸ h.short, hKey ▸ hHash ▸ h.hashed⟩

theorem size_append_words (keys : Array UInt64) (words : List UInt64) :
    (keys ++ words).size = keys.size + words.length := by
  rw [← Array.length_toList, Array.toList_appendList, List.length_append, Array.length_toList]

/-- Keys stay what they are when words are put behind those of the table. -/
theorem Stored.words_append {entry : Entry} (h : Stored t entry) (more : List UInt64) :
    ((t.keys ++ more).toList.drop entry.keyStart.toNat).take (Word.countFor entry.length) =
      (t.keys.toList.drop entry.keyStart.toNat).take (Word.countFor entry.length) := by
  have hLength :
      ((t.keys.toList.drop entry.keyStart.toNat).take (Word.countFor entry.length)).length =
      Word.countFor entry.length := by
    rw [← words_key, h.key, Key.words_packed, Key.length_pack, ← Key.length_packed, ← h.key]
    rfl
  rw [Array.toList_appendList]
  rcases Nat.eq_zero_or_pos (Word.countFor entry.length) with hNone | hSome
  · rw [hNone, List.take_zero, List.take_zero]
  · rw [List.length_take, List.length_drop] at hLength
    rw [List.drop_append_of_le_length (by omega), List.take_append_of_le_length]
    rw [List.length_drop]
    omega

theorem Valid.short_of_mem_names (h : Valid t) {name : List UInt8} (hName : name ∈ t.names) :
    name.length ≤ keyBytes := by
  obtain ⟨station, hStation, rfl⟩ := mem_names_iff.mp hName
  obtain ⟨entry, hEntry, rfl⟩ := List.mem_map.mp hStation
  exact (h.stored entry (Array.mem_toList_iff.mp hEntry)).short

/-! ### Finding -/

/-- The slot of any hash is a slot of the table. -/
theorem Valid.slot_lt (h : Valid t) (hashed : UInt32) : t.size.slot hashed < t.size.slots :=
  TableSize.slot_lt_slots h.tabulated hashed

theorem length_lt (hLength : t.length ≤ t.capacity) : t.entries.size < UInt32.size :=
  hLength.trans_lt t.size.slots.toNat_lt

theorem Valid.length_lt (h : Valid t) : t.entries.size < UInt32.size := Table.length_lt h.length_le

/-- Where the chains are complete the search for a key goes through the entries of its slot. -/
theorem find?_eq_members (hTabulated : t.size ∈ TableSize.all) (hLength : t.length ≤ t.capacity)
    (hLinked : Linked t.size t.heads t.entries) (key : Key) (hashed : UInt32) :
    t.find? key hashed =
      (members t.size t.entries (t.size.slot hashed) t.entries.size).find? fun i =>
        t.entries[i]?.any fun entry =>
          entry.hash == hashed && entry.length == key.length && (t.key entry).words ==
            key.words := by
  rw [find?, findFrom?_eq, head, hLinked.head _ (TableSize.slot_lt_slots hTabulated hashed),
    Option.getD_some, hLinked.chain_eq (length_lt hLength) le_rfl]

/-- The search for a key goes through the entries of its slot. -/
theorem Valid.find?_eq (h : Valid t) (key : Key) (hashed : UInt32) :
    t.find? key hashed =
      (members t.size t.entries (t.size.slot hashed) t.entries.size).find? fun i =>
        t.entries[i]?.any fun entry =>
          entry.hash == hashed && entry.length == key.length && (t.key entry).words == key.words :=
  find?_eq_members h.tabulated h.length_le h.linked key hashed

theorem Valid.exists_of_find? (h : Valid t) {name : List UInt8} {i : Nat}
    (hFound : t.find? (Key.packed name) (hash (Key.pack name)) = some i) :
    ∃ station, t.stations[i]? = some station ∧ station.name = name := by
  rw [h.find?_eq] at hFound
  have hTest := List.find?_some hFound
  simp only [Option.any_eq_true] at hTest
  obtain ⟨entry, hAt, hMatch⟩ := hTest
  simp only [Bool.and_eq_true, beq_iff_eq] at hMatch
  have hKey : t.key entry = Key.packed name := by
    rw [Key.packed, ← Key.words_packed name, ← hMatch.2]
    exact congrArg _ hMatch.1.2
  refine ⟨_, by rw [getElem?_stations, hAt, Option.map_some], ?_⟩
  simp only [hKey, Key.name_packed]

theorem Valid.find?_eq_none (h : Valid t) {name : List UInt8} (hNew : name ∉ t.names) :
    t.find? (Key.packed name) (hash (Key.pack name)) = none := by
  cases hFound : t.find? (Key.packed name) (hash (Key.pack name)) with
  | none => rfl
  | some i =>
      obtain ⟨station, hAt, rfl⟩ := h.exists_of_find? hFound
      exact absurd (List.mem_map_of_mem (List.mem_of_getElem? hAt)) hNew

theorem Valid.find?_eq_some (h : Valid t) {station : Station} {i : Nat}
    (hAt : t.stations[i]? = some station) :
    t.find? (Key.packed station.name) (hash (Key.pack station.name)) = some i := by
  cases hFound : t.find? (Key.packed station.name) (hash (Key.pack station.name)) with
  | none =>
      rw [getElem?_stations, Option.map_eq_some_iff] at hAt
      obtain ⟨entry, hEntry, rfl⟩ := hAt
      have hStored := h.stored entry (Array.mem_of_getElem? hEntry)
      rw [h.find?_eq, List.find?_eq_none] at hFound
      have hHash := hStored.hash_eq
      have hMember : i ∈ members t.size t.entries (t.size.slot (hash (Key.pack (t.key entry).name)))
          t.entries.size :=
        mem_members_iff.mpr ⟨(Array.getElem?_eq_some_iff.mp hEntry).1, entry, hEntry, by rw [hHash]⟩
      refine absurd ?_ (hFound i hMember)
      simp only [hEntry, Option.any_some, Bool.and_eq_true, beq_iff_eq]
      refine ⟨⟨hHash, ?_⟩, ?_⟩
      · rw [← hStored.key]
        rfl
      · rw [← hStored.key]
  | some j =>
      obtain ⟨other, hOther, hName⟩ := h.exists_of_find? hFound
      have hNames (k : Nat) (s : Station) (hs : t.stations[k]? = some s) :
          t.names[k]? = some s.name := by
        rw [names, Listing.names, List.getElem?_map, hs, Option.map_some]
      have hIndex : j < t.names.length :=
        (List.getElem?_eq_some_iff.mp (hNames j other hOther)).1
      have hSame :
        t.names[j]? = t.names[i]? := by rw [hNames j other hOther, hName, hNames i station hAt]
      rw [(List.getElem?_inj hIndex h.distinct).mp hSame]

/-- The aggregate of a name is the listed one. Names that are too long for a key are
neither listed nor found. -/
theorem Valid.get?_eq_some_iff (h : Valid t) {name : List UInt8} {a : Aggregate} :
    t.get? name = some a ↔ { name, aggregate := a } ∈ t.stations := by
  have hAggregate (i : Nat) :
      t.entries[i]?.map Entry.aggregate = t.stations[i]?.map Station.aggregate := by
    rw [getElem?_stations, Option.map_map]
    rfl
  by_cases hShort : name.length ≤ keyBytes
  · simp only [get?, Key.ofName_eq hShort, Key.words_packed, hAggregate]
    rw [Option.bind_eq_some_iff]
    constructor
    · rintro ⟨i, hFound, hAt⟩
      obtain ⟨station, hStation, rfl⟩ := h.exists_of_find? hFound
      rw [hStation, Option.map_some, Option.some_inj] at hAt
      exact hAt ▸ List.mem_of_getElem? hStation
    · intro hListed
      obtain ⟨i, hAt⟩ := List.mem_iff_getElem?.mp hListed
      exact ⟨i, h.find?_eq_some hAt, by rw [hAt, Option.map_some]⟩
  · have hNone : t.get? name = none := by simp only [get?, Key.ofName, if_neg hShort]
    rw [hNone]
    constructor
    · intro hFound
      cases hFound
    · intro hListed
      exact absurd (h.short_of_mem_names (List.mem_map_of_mem hListed)) hShort

/-- Two tables say the same of every name exactly if they list the same
stations, in whatever order. -/
theorem Valid.get?_eq_iff_perm (h : Valid t) {otherHash : KeyHash} {other : Table otherHash}
    (hOther : Valid other) :
    (∀ name, t.get? name = other.get? name) ↔ t.stations.Perm other.stations := by
  constructor
  · intro hSame
    rw [List.perm_ext_iff_of_nodup (List.Nodup.of_map _ h.distinct)
      (List.Nodup.of_map _ hOther.distinct)]
    rintro ⟨name, a⟩
    rw [← h.get?_eq_some_iff, ← hOther.get?_eq_some_iff, hSame]
  · intro hPerm name
    ext a
    rw [h.get?_eq_some_iff, hOther.get?_eq_some_iff, hPerm.mem_iff]

/-! ### Adding -/

/-- A table takes the readings behind an aggregate if there is room for the station and its fields
can hold what comes together. -/
structure Takes (t : Table hash) (name : List UInt8) (a : Aggregate) : Prop where
  range : ∀ station ∈ t.stations, station.name = name → (station.aggregate.join a).InRange
  room : name ∉ t.names → t.length < t.capacity

/-- The table `t'` comes from `t` by adding the readings behind an aggregate. -/
structure Gathers (name : List UInt8) (a : Aggregate) (t t' : Table hash) : Prop where
  valid : Valid t'
  stations : t'.stations = Listing.gather name a t.stations
  size : t'.size = t.size

/-- The table with another aggregate in an entry. -/
def withAggregate (t : Table hash) (i : Nat) (entry : Entry) (a : Aggregate) : Table hash :=
  { t with entries := t.entries.setIfInBounds i { entry with aggregate := a } }

@[simp] theorem length_withAggregate (t : Table hash) (i : Nat) (entry : Entry) (a : Aggregate) :
    (t.withAggregate i entry a).length = t.length :=
  Array.size_setIfInBounds

theorem forall_mem_withAggregate {P : Entry → Prop} (h : ∀ entry ∈ t.entries, P entry) (i : Nat)
    {entry : Entry} (a : Aggregate) (hChanged : P { entry with aggregate := a }) :
    ∀ other ∈ (t.withAggregate i entry a).entries, P other := by
  intro other hOther
  rcases Array.mem_or_eq_of_mem_setIfInBounds hOther with hOld | rfl
  · exact h other hOld
  · exact hChanged

theorem stations_withAggregate {i : Nat} {entry : Entry} (hAt : t.entries[i]? = some entry)
    (a : Aggregate) :
    (t.withAggregate i entry a).stations =
      t.stations.set i { name := (t.key entry).name, aggregate := a } := by
  have hIndex : i < t.entries.size := (Array.getElem?_eq_some_iff.mp hAt).1
  apply List.ext_getElem?
  intro j
  rw [getElem?_stations, List.getElem?_set, length_stations, length, if_pos hIndex, withAggregate,
    Array.getElem?_setIfInBounds, if_pos hIndex]
  split
  · rfl
  · rw [getElem?_stations]
    rfl

theorem names_withAggregate {i : Nat} {entry : Entry} (hAt : t.entries[i]? = some entry)
    (a : Aggregate) : (t.withAggregate i entry a).names = t.names := by
  have hStation : t.names[i]? = some (t.key entry).name := by
    rw [names, Listing.names, List.getElem?_map, getElem?_stations, hAt]
    rfl
  obtain ⟨hIndex, hName⟩ := List.getElem?_eq_some_iff.mp hStation
  rw [names, Listing.names, stations_withAggregate hAt, List.map_set, ← hName]
  exact List.set_getElem_self hIndex

theorem Valid.withAggregate (h : Valid t) {i : Nat} {entry : Entry}
    (hAt : t.entries[i]? = some entry) (a : Aggregate) : Valid (t.withAggregate i entry a) := by
  have hNames := names_withAggregate hAt a
  exact
    { tabulated := h.tabulated
      heads_size := h.heads_size
      length_le := by
        rw [length_withAggregate]
        exact h.length_le
      linked := h.linked.set hAt rfl rfl
      stored := by
        apply forall_mem_withAggregate
        · exact fun other hOther => (h.stored other hOther).congr rfl rfl
        · exact (h.stored entry (Array.mem_of_getElem? hAt)).congr rfl rfl
      distinct := by
        rw [hNames]
        exact h.distinct
      keys_size := by
        rw [hNames]
        exact h.keys_size }

/-- Adding to a listed station. -/
theorem Valid.absorb_listed (h : Valid t) {station : Station} (hListed : station ∈ t.stations)
    {a : Aggregate} (hRange : (station.aggregate.join a).InRange) :
    ∃ t', absorb (Key.packed station.name) (hash (Key.pack station.name)) a t = .ok () t' ∧
      Gathers station.name a t t' := by
  obtain ⟨i, hStation⟩ := List.mem_iff_getElem?.mp hListed
  have hEntry := hStation
  rw [getElem?_stations, Option.map_eq_some_iff] at hEntry
  obtain ⟨entry, hAt, rfl⟩ := hEntry
  have hMerge : entry.aggregate.merge a = .ok (entry.aggregate.join a) := if_pos hRange
  refine ⟨t.withAggregate i entry (entry.aggregate.join a), ?_, h.withAggregate hAt _, ?_, rfl⟩
  · rw [absorb, h.find?_eq_some hStation]
    simp only [update, hAt, hMerge]
    rfl
  · rw [stations_withAggregate hAt, Listing.gather_of_getElem? h.distinct hStation]

/-- Readings that do not fit the fields of a listed station are refused. -/
theorem Valid.absorb_listed_eq_error (h : Valid t) {station : Station}
    (hListed : station ∈ t.stations) {a : Aggregate}
    (hWide : ¬ (station.aggregate.join a).InRange) :
    absorb (Key.packed station.name) (hash (Key.pack station.name)) a t = .error .overflow t := by
  obtain ⟨i, hStation⟩ := List.mem_iff_getElem?.mp hListed
  have hEntry := hStation
  rw [getElem?_stations, Option.map_eq_some_iff] at hEntry
  obtain ⟨entry, hAt, rfl⟩ := hEntry
  have hMerge : entry.aggregate.merge a = .error .overflow := if_neg hWide
  rw [absorb, h.find?_eq_some hStation]
  simp only [update, hAt, hMerge]

/-- The entry of a new station, which links to the head of its slot. -/
def newEntry (t : Table hash) (key : Key) (hashed : UInt32) (a : Aggregate) : Entry :=
  { aggregate := a
    earlier := t.head hashed
    hash := hashed
    length := key.length
    keyStart := t.keys.size.toUInt32 }

/-- The table with a new station in front of the chain of its slot. -/
def withStation (t : Table hash) (key : Key) (hashed : UInt32) (a : Aggregate) : Table hash :=
  { t with
    heads := t.heads.setIfInBounds (t.size.slot hashed).toNat t.entries.size.toUInt32
    entries := t.entries.push (t.newEntry key hashed a)
    keys := t.keys ++ key.words }

@[simp] theorem length_withStation (t : Table hash) (key : Key) (hashed : UInt32) (a : Aggregate) :
    (t.withStation key hashed a).length = t.length + 1 :=
  Array.size_push _

@[simp] theorem size_heads_withStation (t : Table hash) (key : Key) (hashed : UInt32)
    (a : Aggregate) :
    (t.withStation key hashed a).heads.size = t.heads.size :=
  Array.size_setIfInBounds

theorem forall_mem_withStation {P : Entry → Prop} (h : ∀ entry ∈ t.entries, P entry) {key : Key}
    {hashed : UInt32} {a : Aggregate} (hNew : P (t.newEntry key hashed a)) :
    ∀ other ∈ (t.withStation key hashed a).entries, P other := by
  intro other hOther
  rcases Array.mem_push.mp hOther with hOld | rfl
  · exact h other hOld
  · exact hNew

theorem size_keys_withStation (key : Key) (hashed : UInt32) (a : Aggregate) :
    (t.withStation key hashed a).keys.size = t.keys.size + key.words.length := by
  rw [withStation, size_append_words]

/-- A key that is not found is put into the table if there is room. -/
theorem absorb_eq_withStation {key : Key} {hashed : UInt32} (hNone : t.find? key hashed = none)
    (hRoom : t.length < t.capacity) (a : Aggregate) :
    absorb key hashed a t = .ok () (t.withStation key hashed a) := by
  rw [absorb, hNone]
  exact if_pos hRoom

/-- All that adding readings can do to a table. -/
theorem absorb_ok_cases {key : Key} {hashed : UInt32} {a : Aggregate} {t' : Table hash}
    (hAdded : absorb key hashed a t = .ok () t') :
    (∃ i entry, t.entries[i]? = some entry ∧ (entry.aggregate.join a).InRange ∧
      t' = t.withAggregate i entry (entry.aggregate.join a)) ∨
    t.length < t.capacity ∧ t' = t.withStation key hashed a := by
  rw [absorb] at hAdded
  cases hFound : t.find? key hashed with
  | none =>
      simp only [hFound, insert] at hAdded
      split at hAdded
      · rename_i hRoom
        cases hAdded
        exact Or.inr ⟨hRoom, rfl⟩
      · cases hAdded
  | some i =>
      simp only [hFound, update] at hAdded
      split at hAdded
      · cases hAdded
      · rename_i entry hAt
        simp only [Aggregate.merge] at hAdded
        by_cases hRange : (entry.aggregate.join a).InRange
        · simp only [if_pos hRange] at hAdded
          cases hAdded
          exact Or.inl ⟨i, entry, hAt, hRange, rfl⟩
        · simp only [if_neg hRange] at hAdded
          cases hAdded

section WithStation

variable {name : List UInt8} {a : Aggregate}

/-- The keys of the entries that were there are still read back. -/
theorem key_withStation {entry : Entry} (h : Stored t entry) (key : Key) (hashed : UInt32)
    (a : Aggregate) :
    (t.withStation key hashed a).key entry = t.key entry := by
  have hWords : ((t.withStation key hashed a).key entry).words = (t.key entry).words := by
    rw [words_key, words_key]
    exact h.words_append key.words
  exact congrArg (fun words => ({ words, length := entry.length } : Key)) hWords

/-- The words of the name, if it has any, would start at a position of thirty-two bits. -/
def HasPositionFor (t : Table hash) (name : List UInt8) : Prop :=
  0 < Word.countFor name.length → t.keys.size < UInt32.size

theorem hasPositionFor_of_le (h : t.keys.size + Word.countFor name.length ≤ UInt32.size) :
    t.HasPositionFor name := by
  intro hSome
  omega

/-- The key of the new entry is that of its name, provided that its position fits thirty-two
bits. -/
theorem key_newEntry (hPosition : t.HasPositionFor name) (hashed : UInt32) :
    (t.withStation (Key.packed name) hashed a).key (t.newEntry (Key.packed name) hashed a) =
      Key.packed name := by
  have hWords : ((t.withStation (Key.packed name) hashed a).key
      (t.newEntry (Key.packed name) hashed a)).words = Key.pack name := by
    rw [words_key]
    simp only [withStation, newEntry, Key.words_packed, Key.length_packed, Array.toList_appendList]
    rw [HasPositionFor] at hPosition
    rw [← Key.length_pack] at hPosition ⊢
    rcases Nat.eq_zero_or_pos (Key.pack name).length with hNone | hSome
    · rw [hNone, List.take_zero, List.eq_nil_of_length_eq_zero hNone]
    · have hStart : t.keys.size.toUInt32.toNat = t.keys.toList.length :=
        UInt32.toNat_ofNat_of_lt' (hPosition hSome)
      rw [hStart, List.drop_left, List.take_length]
  exact congrArg (fun words => ({ words, length := name.length } : Key)) hWords

theorem stations_withStation (h : Valid t) (hPosition : t.HasPositionFor name) (hashed : UInt32) :
    (t.withStation (Key.packed name) hashed a).stations =
      t.stations ++ [{ name, aggregate := a }] := by
  have hOld : (t.entries.toList.map fun entry =>
      ({ name := ((t.withStation (Key.packed name) hashed a).key entry).name,
         aggregate := entry.aggregate } : Station)) = t.stations := by
    apply List.map_congr_left
    intro entry hEntry
    rw [key_withStation (h.stored entry (Array.mem_toList_iff.mp hEntry))]
  have hEntries : (t.withStation (Key.packed name) hashed a).entries.toList =
      t.entries.toList ++ [t.newEntry (Key.packed name) hashed a] := Array.toList_push
  rw [stations, hEntries, List.map_append, hOld, List.map_singleton, key_newEntry hPosition,
    Key.name_packed]
  rfl

theorem Valid.withStation (h : Valid t) (hShort : name.length ≤ keyBytes) (hNew : name ∉ t.names)
    (hRoom : t.length < t.capacity) (hPosition : t.HasPositionFor name) :
    Valid (t.withStation (Key.packed name) (hash (Key.pack name)) a) := by
  have hNames : (t.withStation (Key.packed name) (hash (Key.pack name)) a).names =
      t.names ++ [name] := by
    rw [names, stations_withStation h hPosition, Listing.names_append]
    rfl
  have hLinked : Linked t.size
      (t.heads.setIfInBounds (t.size.slot (hash (Key.pack name))).toNat t.entries.size.toUInt32)
      (t.entries.push (t.newEntry (Key.packed name) (hash (Key.pack name)) a)) :=
    h.linked.push h.heads_size rfl (h.slot_lt _) rfl
  exact
    { tabulated := h.tabulated
      heads_size := by
        rw [size_heads_withStation]
        exact h.heads_size
      length_le := by
        rw [length_withStation]
        exact hRoom
      linked := hLinked
      stored := by
        apply forall_mem_withStation
        · intro entry hOld
          exact (h.stored entry hOld).congr (key_withStation (h.stored entry hOld) _ _ _) rfl
        · have hKey := key_newEntry (a := a) hPosition (hash (Key.pack name))
          refine ⟨?_, ?_, ?_⟩
          · rw [hKey, Key.name_packed]
          · rw [hKey, Key.name_packed]
            exact hShort
          · rw [hKey, Key.words_packed]
            rfl
      distinct := by
        rw [hNames, ← List.concat_eq_append]
        exact h.distinct.concat hNew
      keys_size := by
        rw [hNames, List.map_append, List.sum_append, ← h.keys_size, size_keys_withStation,
          Key.words_packed, Key.length_pack, List.map_singleton, List.sum_singleton] }

end WithStation

/-- Adding to a station that is not listed yet. -/
theorem Valid.absorb_new (h : Valid t) {name : List UInt8} (hShort : name.length ≤ keyBytes)
    (hNew : name ∉ t.names) (hRoom : t.length < t.capacity) (hPosition : t.HasPositionFor name)
    (a : Aggregate) :
    ∃ t', absorb (Key.packed name) (hash (Key.pack name)) a t = .ok () t' ∧
      Gathers name a t t' := by
  refine ⟨_, absorb_eq_withStation (h.find?_eq_none hNew) hRoom a,
    h.withStation hShort hNew hRoom hPosition, ?_, rfl⟩
  rw [stations_withStation h hPosition, Listing.gather_of_not_mem hNew]

/-- A table that takes the readings has them afterwards. -/
theorem Valid.absorb_of_takes (h : Valid t) {name : List UInt8} {a : Aggregate}
    (hTakes : Takes t name a) (hShort : name.length ≤ keyBytes)
    (hPosition : name ∉ t.names → t.HasPositionFor name) :
    ∃ t', absorb (Key.packed name) (hash (Key.pack name)) a t = .ok () t' ∧
      Gathers name a t t' := by
  by_cases hListed : name ∈ t.names
  · obtain ⟨station, hStation, rfl⟩ := mem_names_iff.mp hListed
    exact h.absorb_listed hStation (hTakes.range station hStation rfl)
  · exact h.absorb_new hShort hListed (hTakes.room hListed) (hPosition hListed) a

/-- Only readings that the table takes are added. -/
theorem Valid.takes_of_absorb (h : Valid t) {name : List UInt8} {a : Aggregate} {t' : Table hash}
    (hAdded : absorb (Key.packed name) (hash (Key.pack name)) a t = .ok () t') :
    Takes t name a := by
  constructor
  · rintro station hStation rfl
    by_contra hWide
    rw [h.absorb_listed_eq_error hStation hWide] at hAdded
    cases hAdded
  · intro hNew
    rw [absorb, h.find?_eq_none hNew] at hAdded
    by_contra hFull
    simp only [insert, length] at hAdded hFull
    simp only [if_neg hFull] at hAdded
    cases hAdded

/-- Only entries are found. -/
theorem exists_entry_of_find? {key : Key} {hashed : UInt32} {i : Nat}
    (hFound : t.find? key hashed = some i) :
    ∃ entry, t.entries[i]? = some entry := by
  rw [find?, findFrom?_eq] at hFound
  have hTest := List.find?_some hFound
  simp only [Option.any_eq_true] at hTest
  obtain ⟨entry, hAt, -⟩ := hTest
  exact ⟨entry, hAt⟩

/-- All that can keep readings from being added: there is no room for the station, or they do not
fit the fields of its entry. The table stays as it was. -/
theorem absorb_error_cases {key : Key} {hashed : UInt32} {a : Aggregate} {fault : Fault}
    {t' : Table hash} (hRefused : absorb key hashed a t = .error fault t') :
    t' = t ∧ (fault = .tableFull t.capacity ∧ t.find? key hashed = none ∧ t.capacity ≤ t.length ∨
      fault = .overflow ∧ ∃ i entry, t.find? key hashed = some i ∧ t.entries[i]? = some entry ∧
        ¬ (entry.aggregate.join a).InRange) := by
  rw [absorb] at hRefused
  cases hFound : t.find? key hashed with
  | none =>
      simp only [hFound, insert] at hRefused
      split at hRefused
      · cases hRefused
      · rename_i hFull
        cases hRefused
        exact ⟨rfl, Or.inl ⟨rfl, rfl, Nat.not_lt.mp hFull⟩⟩
  | some i =>
      obtain ⟨entry, hAt⟩ := exists_entry_of_find? hFound
      simp only [hFound, update, hAt, Aggregate.merge] at hRefused
      by_cases hRange : (entry.aggregate.join a).InRange
      · simp only [if_pos hRange] at hRefused
        cases hRefused
      · simp only [if_neg hRange] at hRefused
        cases hRefused
        exact ⟨rfl, Or.inr ⟨rfl, i, entry, rfl, hAt, hRange⟩⟩

/-- A refused station leaves the table as it was. -/
theorem eq_of_absorb_error {key : Key} {hashed : UInt32} {a : Aggregate} {fault : Fault}
    {t t' : Table hash} (hRefused : absorb key hashed a t = .error fault t') : t' = t :=
  (absorb_error_cases hRefused).1

end StationStats.Table
