import StationStats.Proofs.Station.Merge

/-!
Keys that outgrow their positions. Where the words of a key start is a number of thirty-two bits,
and only the largest tables have room for so many names that this can be too little. Up to that
point a table is in good order. From then on its first entries still are, and their names take all
positions. So a table whose words have positions is in good order, whatever was merged into it, and
a smaller table always is. How small it has to be depends on the length of the names alone.
-/

namespace StationStats.Table

variable {hash : KeyHash} {names : List (List UInt8)} {bound : Nat} {t t' other : Table hash}
  {key : Key} {hashed : UInt32} {a : Aggregate}

/-- A table in good order, no name of which is longer than this. -/
structure Within (bound : Nat) (t : Table hash) : Prop extends Valid t where
  names_le : ∀ name ∈ t.names, name.length ≤ bound

theorem Within.of_gathers (h : Within bound t) {name : List UInt8} (hLength : name.length ≤ bound)
    (hGathers : Gathers name a t t') : Within bound t' where
  toValid := hGathers.valid
  names_le := hGathers.names_le hLength h.names_le

/-! ### What is read back in any case -/

/-- The key has the words that its length calls for, and if these are none, the hash is that of no
words. -/
structure Plausible (hash : KeyHash) (key : Key) (hashed : UInt32) : Prop where
  words : key.words.length = Word.countFor key.length
  empty : key.length = 0 → hashed = hash []

theorem plausible_packed (hash : KeyHash) (name : List UInt8) :
    Plausible hash (Key.packed name) (hash (Key.pack name)) where
  words := Key.length_pack name
  empty hNone := by rw [List.eq_nil_of_length_eq_zero hNone, Key.pack_nil]

theorem Plausible.eq_packed (h : Plausible hash key hashed) (hNone : key.words.length = 0) :
    key = Key.packed [] ∧ hashed = hash (Key.pack []) := by
  have hLength : key.length = 0 := by
    have hCount := h.words
    rw [hNone, Word.countFor] at hCount
    omega
  refine ⟨Key.eq_packed_iff.mpr ⟨?_, hLength⟩, ?_⟩
  · rw [Key.pack_nil, List.eq_nil_of_length_eq_zero hNone]
  · rw [Key.pack_nil]
    exact h.empty hLength

/-- Every entry has words to read back, even from a wrong position. -/
structure Readable (t : Table hash) : Prop where
  inside : ∀ entry ∈ t.entries, entry.keyStart.toNat + Word.countFor entry.length ≤ t.keys.size
  empty : ∀ entry ∈ t.entries, entry.length = 0 → entry.hash = hash []

theorem readable_ofSize (size : TableSize) : Readable (ofSize size : Table hash) := by
  constructor <;> simp [ofSize]

theorem Readable.plausibleKey (h : Readable t) {entry : Entry} (hEntry : entry ∈ t.entries) :
    Plausible hash (t.key entry) entry.hash where
  words := by
    have hInside := h.inside entry hEntry
    have hLength : (t.key entry).length = entry.length := rfl
    rw [words_key, List.length_take, List.length_drop, Array.length_toList, hLength]
    omega
  empty := h.empty entry hEntry

theorem Readable.absorb (h : Readable t) (hKey : Plausible hash key hashed)
    (hAdded : Table.absorb key hashed a t = .ok () t') : Readable t' := by
  rcases absorb_ok_cases hAdded with ⟨i, entry, hAt, -, rfl⟩ | ⟨-, rfl⟩
  · have hEntry := Array.mem_of_getElem? hAt
    exact ⟨forall_mem_withAggregate h.inside i _ (h.inside entry hEntry),
      forall_mem_withAggregate h.empty i _ (h.empty entry hEntry)⟩
  · constructor
    · rw [size_keys_withStation]
      apply forall_mem_withStation
      · exact fun entry hOld => (h.inside entry hOld).trans (Nat.le_add_right _ _)
      · have hStart : t.keys.size.toUInt32.toNat ≤ t.keys.size :=
          UInt32.toNat_ofNat'.trans_le (Nat.mod_le _ _)
        rw [hKey.words]
        exact Nat.add_le_add_right hStart _
    · exact forall_mem_withStation h.empty hKey.empty

/-! ### The first entries -/

/-- The first entries are stored under these names. -/
def StartsWith (names : List (List UInt8)) (t : Table hash) : Prop :=
  ∀ (i : Nat) (name : List UInt8), names[i]? = some name →
    ∃ entry, t.entries[i]? = some entry ∧ Stored t entry ∧ (t.key entry).name = name

theorem StartsWith.length_le (h : StartsWith names t) : names.length ≤ t.length := by
  by_contra hMore
  obtain ⟨entry, hAt, -⟩ := h t.length _ (List.getElem?_eq_getElem (not_le.mp hMore))
  exact (Array.getElem?_eq_some_iff.mp hAt).1.ne rfl

theorem Valid.startsWith (h : Valid t) : StartsWith t.names t := by
  intro i name hName
  rw [Table.names, Listing.names, List.getElem?_map, getElem?_stations, Option.map_map] at hName
  obtain ⟨entry, hAt, rfl⟩ := Option.map_eq_some_iff.mp hName
  exact ⟨entry, hAt, h.stored entry (Array.mem_of_getElem? hAt), rfl⟩

/-- Whatever is added, under any key, the first entries keep their names. -/
theorem StartsWith.absorb (h : StartsWith names t)
    (hAdded : Table.absorb key hashed a t = .ok () t') : StartsWith names t' := by
  intro i name hName
  obtain ⟨entry, hAt, hStored, rfl⟩ := h i name hName
  have hIndex := (Array.getElem?_eq_some_iff.mp hAt).1
  rcases absorb_ok_cases hAdded with ⟨j, changed, hChanged, -, rfl⟩ | ⟨-, rfl⟩
  · rw [withAggregate, Array.getElem?_setIfInBounds]
    by_cases hSame : j = i
    · subst hSame
      obtain rfl := Option.some_inj.mp (hChanged.symm.trans hAt)
      exact ⟨{ changed with aggregate := changed.aggregate.join a },
        by rw [if_pos rfl, if_pos hIndex], hStored.congr rfl rfl, rfl⟩
    · exact ⟨entry, by rw [if_neg hSame, hAt], hStored.congr rfl rfl, rfl⟩
  · have hKey := key_withStation hStored key hashed a
    refine ⟨entry, ?_, hStored.congr hKey rfl, congrArg Key.name hKey⟩
    rw [withStation, Array.getElem?_push, if_neg hIndex.ne, hAt]

/-! ### Tables that may have outgrown their positions -/

theorem length_le_of_absorb (hLength : t.length ≤ t.capacity)
    (hAdded : absorb key hashed a t = .ok () t') : t'.length ≤ t'.capacity := by
  rcases absorb_ok_cases hAdded with ⟨i, entry, -, -, rfl⟩ | ⟨hRoom, rfl⟩
  · rw [length_withAggregate]
    exact hLength
  · rw [length_withStation]
    exact hRoom

/-- The first entries have different names that are not longer than the bound and take all
positions, and there are words behind these. -/
structure Crowded (bound : Nat) (t : Table hash) (names : List (List UInt8)) : Prop where
  starts : StartsWith names t
  names_le : ∀ name ∈ names, name.length ≤ bound
  distinct : names.Nodup
  many : UInt32.size ≤ wordsOf names
  outgrown : UInt32.size < t.keys.size
  length_le : t.length ≤ t.capacity

theorem Crowded.absorb (h : Crowded bound t names)
    (hAdded : Table.absorb key hashed a t = .ok () t') : Crowded bound t' names where
  starts := h.starts.absorb hAdded
  names_le := h.names_le
  distinct := h.distinct
  many := h.many
  outgrown := h.outgrown.trans_le (size_keys_le_of_absorb hAdded)
  length_le := length_le_of_absorb h.length_le hAdded

/-- Once all positions are taken, the next words make the table crowded. -/
theorem Within.crowded (h : Within bound t) (hFull : UInt32.size ≤ t.keys.size)
    (hAdded : absorb key hashed a t = .ok () t') (hGrown : t.keys.size < t'.keys.size) :
    Crowded bound t' t.names where
  starts := h.startsWith.absorb hAdded
  names_le := h.names_le
  distinct := h.distinct
  many := hFull.trans_eq h.keys_size
  outgrown := hFull.trans_lt hGrown
  length_le := length_le_of_absorb h.length_le hAdded

/-- Readings of a station that are added to a table in good order are gathered, or there is no
position left for its name. -/
theorem Within.absorb_cases (h : Within bound t) (hBound : bound ≤ keyBytes) {name : List UInt8}
    (hLength : name.length ≤ bound)
    (hAdded : absorb (Key.packed name) (hash (Key.pack name)) a t = .ok () t') :
    (Within bound t' ∧ Gathers name a t t') ∨ Crowded bound t' t.names := by
  by_cases hPosition : name ∉ t.names → t.HasPositionFor name
  · have hGathers := h.gathers_of_absorb (hLength.trans hBound) hPosition hAdded
    exact Or.inl ⟨h.of_gathers hLength hGathers, hGathers⟩
  · simp only [HasPositionFor, Classical.not_imp, not_lt] at hPosition
    obtain ⟨hNew, hSome, hFull⟩ := hPosition
    refine Or.inr (h.crowded hFull hAdded ?_)
    have hRoom := (h.takes_of_absorb hAdded).room hNew
    cases hAdded.symm.trans (absorb_eq_withStation (h.find?_eq_none hNew) hRoom a)
    rw [size_keys_withStation, Key.words_packed, Key.length_pack]
    exact Nat.lt_add_of_pos_right hSome

/-- Once all positions are taken, what is added under any key, even one that was read back from a
wrong position, is added to a listed station or makes the table crowded. -/
theorem Within.absorb_full (h : Within bound t) (hBound : bound ≤ keyBytes)
    (hFull : UInt32.size ≤ t.keys.size) (hKey : Plausible hash key hashed)
    (hAdded : absorb key hashed a t = .ok () t') : Within bound t' ∨ Crowded bound t' t.names := by
  rcases Nat.eq_zero_or_pos key.words.length with hNone | hSome
  · obtain ⟨rfl, rfl⟩ := hKey.eq_packed hNone
    exact (h.absorb_cases hBound (Nat.zero_le _) hAdded).imp_left And.left
  · rcases absorb_ok_cases hAdded with ⟨i, entry, hAt, -, rfl⟩ | ⟨-, rfl⟩
    · exact Or.inl ⟨h.toValid.withAggregate hAt _, names_withAggregate hAt _ ▸ h.names_le⟩
    · refine Or.inr (h.crowded hFull hAdded ?_)
      rw [size_keys_withStation]
      exact Nat.lt_add_of_pos_right hSome

/-- The table is in good order, or it was until it became crowded. -/
structure Orderly (bound : Nat) (t : Table hash) : Prop where
  readable : Readable t
  within_or_crowded : Within bound t ∨ ∃ names, Crowded bound t names

theorem orderly_ofSize {size : TableSize} (h : size ∈ TableSize.all) (bound : Nat) :
    Orderly bound (ofSize size : Table hash) where
  readable := readable_ofSize size
  within_or_crowded := by
    left
    exact ⟨valid_ofSize h, by simp [names, stations_ofSize]⟩

theorem Orderly.absorb (h : Orderly bound t) (hBound : bound ≤ keyBytes) {name : List UInt8}
    (hLength : name.length ≤ bound)
    (hAdded : Table.absorb (Key.packed name) (hash (Key.pack name)) a t = .ok () t') :
    Orderly bound t' where
  readable := h.readable.absorb (plausible_packed hash name) hAdded
  within_or_crowded := by
    rcases h.within_or_crowded with hWithin | ⟨names, hCrowded⟩
    · rcases hWithin.absorb_cases hBound hLength hAdded with ⟨hStill, -⟩ | hCrowded
      · exact Or.inl hStill
      · exact Or.inr ⟨_, hCrowded⟩
    · exact Or.inr ⟨names, hCrowded.absorb hAdded⟩

/-! ### Merging -/

theorem Crowded.absorbAll (h : Crowded bound t names) {entries : List Entry}
    (hAdded : Table.absorbAll other entries t = .ok () t') : Crowded bound t' names := by
  induction entries generalizing t with
  | nil =>
      cases hAdded
      exact h
  | cons entry rest ih =>
      obtain ⟨between, hFirst, hRest⟩ := absorbAll_cons_ok_iff.mp hAdded
      exact ih (h.absorb hFirst) hRest

/-- Stored entries that are merged into a table in good order are listed there, or the table becomes
crowded. -/
theorem Within.absorbAll_cases (h : Within bound t) (hBound : bound ≤ keyBytes)
    {entries : List Entry}
    (hEntries : ∀ entry ∈ entries, Stored other entry ∧ (other.key entry).name.length ≤ bound)
    (hAdded : absorbAll other entries t = .ok () t') :
    (Within bound t' ∧ ∀ name, name ∈ t'.names ↔
      name ∈ t.names ∨ ∃ entry ∈ entries, (other.key entry).name = name) ∨
      ∃ names, Crowded bound t' names := by
  induction entries generalizing t with
  | nil =>
      cases hAdded
      exact Or.inl ⟨h, by simp⟩
  | cons entry rest ih =>
      rw [List.forall_mem_cons] at hEntries
      obtain ⟨⟨hStored, hLength⟩, hRest⟩ := hEntries
      obtain ⟨between, hFirst, hLast⟩ := absorbAll_cons_ok_iff.mp hAdded
      rw [hStored.key, hStored.hash_eq] at hFirst
      rcases h.absorb_cases hBound hLength hFirst with ⟨hWithin, hGathers⟩ | hCrowded
      · rcases ih hWithin hRest hLast with ⟨hStill, hNames⟩ | hCrowded
        · refine Or.inl ⟨hStill, fun name => ?_⟩
          rw [hNames, hGathers.mem_names_iff, List.exists_mem_cons_iff, eq_comm]
          tauto
        · exact Or.inr hCrowded
      · exact Or.inr ⟨_, hCrowded.absorbAll hLast⟩

/-- Entries of any kind can be merged once all positions are taken. -/
theorem Within.absorbAll_full (h : Within bound t) (hBound : bound ≤ keyBytes)
    (hFull : UInt32.size ≤ t.keys.size) {entries : List Entry}
    (hEntries : ∀ entry ∈ entries, Plausible hash (other.key entry) entry.hash)
    (hAdded : absorbAll other entries t = .ok () t') :
    Within bound t' ∨ ∃ names, Crowded bound t' names := by
  induction entries generalizing t with
  | nil =>
      cases hAdded
      exact Or.inl h
  | cons entry rest ih =>
      rw [List.forall_mem_cons] at hEntries
      obtain ⟨between, hFirst, hRest⟩ := absorbAll_cons_ok_iff.mp hAdded
      rcases h.absorb_full hBound hFull hEntries.1 hFirst with hWithin | hCrowded
      · exact ih hWithin (hFull.trans (size_keys_le_of_absorb hFirst)) hEntries.2 hRest
      · exact Or.inr ⟨_, hCrowded.absorbAll hRest⟩

theorem Crowded.stored_of_mem_take (h : Crowded bound t names) {entry : Entry}
    (hEntry : entry ∈ t.entries.toList.take names.length) :
    Stored t entry ∧ (t.key entry).name.length ≤ bound := by
  obtain ⟨i, hAt⟩ := List.mem_iff_getElem?.mp hEntry
  rw [List.getElem?_take] at hAt
  obtain ⟨hIndex, hAt⟩ := Option.ite_none_right_eq_some.mp hAt
  rw [Array.getElem?_toList] at hAt
  obtain ⟨same, hSame, hStored, hName⟩ := h.starts i _ (List.getElem?_eq_getElem hIndex)
  obtain rfl := Option.some_inj.mp (hAt.symm.trans hSame)
  exact ⟨hStored, hName ▸ h.names_le _ (List.getElem_mem hIndex)⟩

theorem Crowded.exists_mem_take (h : Crowded bound t names) {name : List UInt8}
    (hName : name ∈ names) :
    ∃ entry ∈ t.entries.toList.take names.length, (t.key entry).name = name := by
  obtain ⟨i, hAt⟩ := List.mem_iff_getElem?.mp hName
  obtain ⟨entry, hEntry, -, hKey⟩ := h.starts i name hAt
  have hIndex := (List.getElem?_eq_some_iff.mp hAt).1
  refine ⟨entry, List.mem_of_getElem? (i := i) ?_, hKey⟩
  rw [List.getElem?_take, if_pos hIndex, Array.getElem?_toList, hEntry]

/-- Merging does not get behind the first entries of a crowded table unless all positions of the
table that it is merged into are taken. -/
theorem Within.mergeFrom_crowded (h : Within bound t) (hBound : bound ≤ keyBytes)
    (hReadable : Readable other) (hOther : Crowded bound other names) :
    Within bound (stateAfter (mergeFrom other) t) ∨
      ∃ names, Crowded bound (stateAfter (mergeFrom other) t) names := by
  obtain ⟨k, hTaken, -⟩ := exists_absorbAll_take other other.entries.toList t
  change absorbAll other _ t = .ok () (stateAfter (mergeFrom other) t) at hTaken
  rw [← List.take_append_drop names.length (other.entries.toList.take k), List.take_take] at hTaken
  obtain ⟨between, hFirst, hRest⟩ := absorbAll_append_ok_iff.mp hTaken
  have hStored : ∀ entry ∈ other.entries.toList.take (min names.length k),
      Stored other entry ∧ (other.key entry).name.length ≤ bound := fun entry hEntry =>
    hOther.stored_of_mem_take ((List.take_subset_take_left _ (min_le_left _ _)) hEntry)
  rcases h.absorbAll_cases hBound hStored hFirst with ⟨hWithin, hNames⟩ | ⟨crowd, hCrowded⟩
  -- If the merge gets behind the first entries, all of their names are listed.
  · rcases le_or_gt k names.length with hFew | hMore
    · rw [List.drop_of_length_le ((List.length_take_le _ _).trans hFew)] at hRest
      cases hRest
      exact Or.inl hWithin
    · rw [min_eq_left hMore.le] at hNames
      have hListed : names ⊆ between.names := fun name hName =>
        (hNames name).mpr (Or.inr (hOther.exists_mem_take hName))
      have hFull : UInt32.size ≤ between.keys.size := by
        rw [hWithin.keys_size]
        exact hOther.many.trans (wordsOf_le_of_subset hOther.distinct hListed)
      refine hWithin.absorbAll_full hBound hFull (fun entry hEntry => ?_) hRest
      exact hReadable.plausibleKey
        (Array.mem_toList_iff.mp (List.mem_of_mem_take (List.mem_of_mem_drop hEntry)))
  · exact Or.inr ⟨crowd, hCrowded.absorbAll hRest⟩

theorem Readable.mergeFrom (h : Readable t) (hOther : Readable other) :
    Readable (stateAfter (mergeFrom other) t) :=
  mergeFrom_preserves
    (fun _ hEntry _ _ h hAdded => h.absorb (hOther.plausibleKey hEntry) hAdded) h

theorem Orderly.mergeFrom (h : Orderly bound t) (hBound : bound ≤ keyBytes)
    (hOther : Orderly bound other) : Orderly bound (stateAfter (mergeFrom other) t) := by
  rcases hOther.within_or_crowded with hWithin | ⟨names, hCrowded⟩
  · refine mergeFrom_preserves (fun entry hEntry t t' h hAdded => ?_) h
    have hStored := hWithin.stored entry hEntry
    rw [hStored.key, hStored.hash_eq] at hAdded
    exact h.absorb hBound (hWithin.names_le _ (mem_names_of_mem_entries hEntry)) hAdded
  · refine ⟨h.readable.mergeFrom hOther.readable, ?_⟩
    rcases h.within_or_crowded with hMine | ⟨mine, hMine⟩
    · exact hMine.mergeFrom_crowded hBound hOther.readable hCrowded
    · exact Or.inr ⟨mine, mergeFrom_preserves (P := fun t => Crowded bound t mine)
        (fun _ _ _ _ h hAdded => h.absorb hAdded) hMine⟩

/-- A table whose words have positions is in good order. -/
theorem Orderly.within (h : Orderly bound t) (hPositions : t.keys.size ≤ UInt32.size) :
    Within bound t := by
  rcases h.within_or_crowded with hWithin | ⟨names, hCrowded⟩
  · exact hWithin
  · exact absurd hCrowded.outgrown hPositions.not_gt

/-- So is one with more positions than the words of as many longest names as it has room for. -/
theorem Orderly.within_of_capacity (h : Orderly bound t)
    (hCapacity : Word.countFor bound * t.capacity < UInt32.size) : Within bound t := by
  rcases h.within_or_crowded with hWithin | ⟨names, hCrowded⟩
  · exact hWithin
  · have hLength := hCrowded.starts.length_le.trans hCrowded.length_le
    have hWords := (wordsOf_le hCrowded.names_le).trans (Nat.mul_le_mul_left _ hLength)
    exact absurd hCapacity (hCrowded.many.trans hWords).not_gt

end StationStats.Table
