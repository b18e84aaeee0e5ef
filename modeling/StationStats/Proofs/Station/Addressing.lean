import StationStats.Proofs.Station.Assembly
import StationStats.Proofs.Station.Collisions

/-!
Where the words of the names of a table stand, and the numbers of thirty-two bits that lead to them.
The words of a new entry are put behind those of all entries before it. Links are numbers of entries
and always fit. The place of the words fits as long as those before it are few enough, which they
are in all sizes but the last two. These have room for so many stations that the place of the words
can be cut to its low bits. An entry with such a place reads back words of others, and a station
whose entry does so is not found again.
-/

namespace StationStats.Table

variable {hash : KeyHash} {t t' other : Table hash} {key : Key} {hashed : UInt32} {a : Aggregate}
  {entry : Entry}

/-- Where the words of the entry at an index stand: behind those of all entries before it. -/
def position (t : Table hash) (i : Nat) : Nat :=
  (((t.entries.toList.map Entry.length).take i).map Word.countFor).sum

/-- The words between the position of an entry and that of the next one. -/
def wordsAt (t : Table hash) (i : Nat) : List UInt64 :=
  (t.keys.toList.take (t.position (i + 1))).drop (t.position i)

/-! ### Positions -/

@[simp] theorem position_zero (t : Table hash) : t.position 0 = 0 := rfl

theorem position_succ {i : Nat} (hAt : t.entries[i]? = some entry) :
    t.position (i + 1) = t.position i + Word.countFor entry.length := by
  have hLength : (t.entries.toList.map Entry.length)[i]? = some entry.length := by
    rw [List.getElem?_map, Array.getElem?_toList, hAt, Option.map_some]
  rw [position, List.take_add_one, hLength, Option.toList_some, List.map_append, List.sum_append,
    List.map_singleton, List.sum_singleton, position]

theorem position_mono {i j : Nat} (h : i ≤ j) : t.position i ≤ t.position j := by
  rw [position, position, ← List.take_append_drop i ((t.entries.toList.map Entry.length).take j),
    List.take_take, Nat.min_eq_left h, List.map_append, List.sum_append]
  exact Nat.le_add_right _ _

/-- Entries with names up to a length have at most the words of as many names of
that length before them. -/
theorem position_le {bound : Nat} (h : ∀ entry ∈ t.entries, entry.length ≤ bound) (i : Nat) :
    t.position i ≤ Word.countFor bound * i := by
  have hLengths : ∀ length ∈ (t.entries.toList.map Entry.length).take i, length ≤ bound := by
    intro length hLength
    obtain ⟨entry, hEntry, rfl⟩ := List.mem_map.mp (List.mem_of_mem_take hLength)
    exact h entry (Array.mem_toList_iff.mp hEntry)
  exact (sum_countFor_le hLengths).trans (Nat.mul_le_mul_left _ (List.length_take_le _ _))

theorem wordsAt_eq {i : Nat} (hAt : t.entries[i]? = some entry) :
    t.wordsAt i = (t.keys.toList.drop (t.position i)).take (Word.countFor entry.length) := by
  rw [wordsAt, position_succ hAt, List.drop_take, Nat.add_sub_cancel_left]

/-! ### What additions do to positions -/

theorem position_withAggregate {i : Nat} (hAt : t.entries[i]? = some entry) (a : Aggregate) :
    (t.withAggregate i entry a).position = t.position := by
  have hSame : (t.withAggregate i entry a).entries.toList.map Entry.length =
      t.entries.toList.map Entry.length := by
    have hLength : (t.entries.toList.map Entry.length)[i]? = some entry.length := by
      rw [List.getElem?_map, Array.getElem?_toList, hAt, Option.map_some]
    obtain ⟨hIndex, hHere⟩ := List.getElem?_eq_some_iff.mp hLength
    rw [withAggregate, Array.toList_setIfInBounds, List.map_set]
    conv_rhs => rw [← List.set_getElem_self hIndex, hHere]
  funext j
  rw [position, hSame, position]

theorem position_withStation {i : Nat} (hi : i ≤ t.length) (key : Key) (hashed : UInt32)
    (a : Aggregate) :
    (t.withStation key hashed a).position i = t.position i := by
  have hBefore : i ≤ (t.entries.toList.map Entry.length).length := by
    rwa [List.length_map, Array.length_toList]
  rw [position, withStation, Array.toList_push, List.map_append,
    List.take_append_of_le_length hBefore, position]

theorem getElem?_withStation (t : Table hash) (key : Key) (hashed : UInt32) (a : Aggregate) :
    (t.withStation key hashed a).entries[t.length]? = some (t.newEntry key hashed a) :=
  Array.getElem?_push_size

theorem position_withStation_succ (t : Table hash) (key : Key) (hashed : UInt32) (a : Aggregate) :
    (t.withStation key hashed a).position (t.length + 1) =
      t.position t.length + Word.countFor key.length := by
  rw [position_succ (getElem?_withStation t key hashed a), position_withStation le_rfl]
  rfl

/-! ### Tables that can be built -/

/-- What additions and merges keep, whether or not positions have outgrown thirty-two bits: the
chains are complete, the words of all entries stand behind one another without gaps, and each entry
keeps the low bits of its position. -/
structure Laid (t : Table hash) : Prop where
  tabulated : t.size ∈ TableSize.all
  heads_size : t.heads.size = t.capacity
  length_le : t.length ≤ t.capacity
  linked : Linked t.size t.heads t.entries
  short : ∀ entry ∈ t.entries, entry.length ≤ keyBytes
  keys_size : t.keys.size = t.position t.length
  keyStart : ∀ i entry, t.entries[i]? = some entry → entry.keyStart = (t.position i).toUInt32

theorem laid_ofSize {size : TableSize} (h : size ∈ TableSize.all) :
    Laid (ofSize size : Table hash) where
  tabulated := h
  heads_size := Array.size_replicate
  length_le := Nat.zero_le _
  linked := linked_ofSize
  short entry hEntry := by simp [ofSize] at hEntry
  keys_size := rfl
  keyStart i entry hAt := by simp [ofSize] at hAt

/-- Places that are cut to their low bits lie before the places themselves. -/
theorem Laid.toNat_keyStart (h : Laid t) {i : Nat} (hAt : t.entries[i]? = some entry) :
    entry.keyStart.toNat = t.position i % UInt32.size := by
  rw [h.keyStart i entry hAt]
  exact UInt32.toNat_ofNat'

/-- What an entry reads back: as many words as its name has, from the low bits of its position
on. -/
theorem Laid.words_key_eq (h : Laid t) {i : Nat} (hAt : t.entries[i]? = some entry) :
    (t.key entry).words = (t.keys.toList.drop (t.position i % UInt32.size)).take
      (Word.countFor entry.length) := by
  rw [words_key, h.toNat_keyStart hAt]

theorem Laid.position_add_le (h : Laid t) {i : Nat} (hAt : t.entries[i]? = some entry) :
    t.position i + Word.countFor entry.length ≤ t.keys.size := by
  have hIndex := (Array.getElem?_eq_some_iff.mp hAt).1
  rw [← position_succ hAt, h.keys_size]
  exact position_mono hIndex

/-- There are always as many words to read back. -/
theorem Laid.length_words_key (h : Laid t) (hEntry : entry ∈ t.entries) :
    (t.key entry).words.length = Word.countFor entry.length := by
  obtain ⟨i, hAt⟩ := Array.mem_iff_getElem?.mp hEntry
  have hInside := h.position_add_le hAt
  have hLow := Nat.mod_le (t.position i) UInt32.size
  rw [h.words_key_eq hAt, List.length_take, List.length_drop, Array.length_toList]
  omega

/-- A key that is put into a table has the words that its length calls for. -/
structure Proper (key : Key) : Prop where
  short : key.length ≤ keyBytes
  words : key.words.length = Word.countFor key.length

theorem proper_packed {name : List UInt8} (h : name.length ≤ keyBytes) :
    Proper (Key.packed name) where
  short := h
  words := Key.length_pack name

theorem Laid.proper_key (h : Laid t) (hEntry : entry ∈ t.entries) : Proper (t.key entry) where
  short := h.short entry hEntry
  words := h.length_words_key hEntry

theorem Laid.withStation (h : Laid t) (hKey : Proper key) (hRoom : t.length < t.capacity) :
    Laid (t.withStation key hashed a) where
  tabulated := h.tabulated
  heads_size := by
    rw [size_heads_withStation]
    exact h.heads_size
  length_le := by
    rw [length_withStation]
    exact hRoom
  linked := h.linked.push h.heads_size rfl (TableSize.slot_lt_slots h.tabulated hashed) rfl
  short := forall_mem_withStation h.short hKey.short
  keys_size := by
    rw [size_keys_withStation, length_withStation, position_withStation_succ, hKey.words,
      h.keys_size]
  keyStart i entry hAt := by
    rw [Table.withStation, Array.getElem?_push] at hAt
    split at hAt
    · rename_i hLast
      cases hAt
      rw [hLast, ← length, position_withStation le_rfl, ← h.keys_size]
      rfl
    · have hIndex := (Array.getElem?_eq_some_iff.mp hAt).1
      rw [position_withStation hIndex.le]
      exact h.keyStart i entry hAt

theorem Laid.withAggregate (h : Laid t) {i : Nat} (hAt : t.entries[i]? = some entry)
    (a : Aggregate) :
    Laid (t.withAggregate i entry a) where
  tabulated := h.tabulated
  heads_size := h.heads_size
  length_le := by
    rw [length_withAggregate]
    exact h.length_le
  linked := h.linked.set hAt rfl rfl
  short := forall_mem_withAggregate h.short i a (h.short entry (Array.mem_of_getElem? hAt))
  keys_size := by
    rw [position_withAggregate hAt, length_withAggregate]
    exact h.keys_size
  keyStart j other hOther := by
    rw [position_withAggregate hAt]
    rw [Table.withAggregate, Array.getElem?_setIfInBounds] at hOther
    split at hOther
    · rename_i hHere
      subst hHere
      rw [Option.ite_none_right_eq_some, Option.some_inj] at hOther
      rw [← hOther.2]
      exact h.keyStart i entry hAt
    · exact h.keyStart j other hOther

/-- One addition under a proper key. -/
theorem Laid.absorb (h : Laid t) (hKey : Proper key)
    (hAdded : Table.absorb key hashed a t = .ok () t') : Laid t' := by
  rcases absorb_ok_cases hAdded with ⟨i, entry, hAt, -, rfl⟩ | ⟨hRoom, rfl⟩
  · exact h.withAggregate hAt _
  · exact h.withStation hKey hRoom

theorem Laid.observe (h : Laid t) (o : Observation) : Laid (stateAfter (observe o) t) :=
  observe_preserves h fun hShort _ hAdded => h.absorb (proper_packed hShort) hAdded

theorem Built.laid (h : Built t) : Laid t := by
  induction h with
  | start h =>
      obtain ⟨size, hSize, -, rfl⟩ := exists_ofSize_of_withCapacity h
      exact laid_ofSize hSize
  | add _ o ih => exact ih.observe o
  | merge _ _ ih ihOther =>
      exact mergeFrom_preserves
        (fun _ hEntry _ _ h hAdded => h.absorb (ihOther.proper_key hEntry) hAdded) ih

/-! ### Exact numbers -/

/-- All numbers of thirty-two bits in the table are exact: heads and links are the numbers of the
latest entries of their slots, none of which is taken for no entry, and each entry knows the
position of its words, so that it reads them back. -/
structure Addressed (t : Table hash) : Prop where
  linked : Linked t.size t.heads t.entries
  index : ∀ i < t.length, i.toUInt32.toNat = i ∧ i.toUInt32 ≠ noEntry
  keyStart : ∀ i entry, t.entries[i]? = some entry → entry.keyStart.toNat = t.position i
  readBack : ∀ i entry, t.entries[i]? = some entry → (t.key entry).words = t.wordsAt i

theorem Laid.index (h : Laid t) : ∀ i < t.length, i.toUInt32.toNat = i ∧ i.toUInt32 ≠ noEntry :=
  fun _ hi => toNat_index hi (length_lt h.length_le)

/-- Nothing but the positions can fail to fit. -/
theorem Laid.addressed_iff (h : Laid t) :
    Addressed t ↔ ∀ i < t.length, t.position i < UInt32.size := by
  constructor
  · intro hExact i hi
    rw [← hExact.keyStart i _ (Array.getElem?_eq_getElem hi)]
    exact UInt32.toNat_lt _
  · intro hFits
    have hWhole (i : Nat) (entry : Entry) (hAt : t.entries[i]? = some entry) :
        t.position i % UInt32.size = t.position i :=
      Nat.mod_eq_of_lt (hFits i (Array.getElem?_eq_some_iff.mp hAt).1)
    refine ⟨h.linked, h.index, fun i entry hAt => ?_, fun i entry hAt => ?_⟩
    · rw [h.toNat_keyStart hAt, hWhole i entry hAt]
    · rw [h.words_key_eq hAt, hWhole i entry hAt, wordsAt_eq hAt]

/-- Names up to a length are short enough if as many of that length as there is
room for have positions. -/
theorem Laid.addressed_of_short (h : Laid t) {bound : Nat} (hShort : ∀ entry ∈ t.entries,
    entry.length ≤ bound)
    (hPositions : Word.countFor bound * t.capacity ≤ UInt32.size) : Addressed t := by
  rw [h.addressed_iff]
  intro i hi
  have hBefore := position_le hShort i
  rcases Nat.eq_zero_or_pos (Word.countFor bound) with hNone | hSome
  · rw [hNone, Nat.zero_mul] at hBefore
    exact hBefore.trans_lt (by decide)
  · exact hBefore.trans_lt
      ((Nat.mul_lt_mul_of_pos_left (hi.trans_le h.length_le) hSome).trans_le hPositions)

/-- The words of a new entry are those of the key that is inserted, and the
words of the others stay. -/
theorem Laid.wordsAt_withStation (h : Laid t) (hKey : Proper key) :
    (t.withStation key hashed a).wordsAt t.length = key.words ∧
      ∀ i < t.length, (t.withStation key hashed a).wordsAt i = t.wordsAt i := by
  have hKeys : (t.withStation key hashed a).keys.toList = t.keys.toList ++ key.words :=
    Array.toList_appendList
  have hOld : t.position t.length = t.keys.toList.length := h.keys_size.symm
  constructor
  · rw [wordsAt, position_withStation_succ, position_withStation le_rfl, hKeys, hOld, ← hKey.words,
      List.take_of_length_le List.length_append.le, List.drop_left]
  · intro i hi
    have hInside : t.position (i + 1) ≤ t.keys.toList.length := hOld ▸ position_mono hi
    rw [wordsAt, position_withStation hi, position_withStation hi.le, hKeys,
      List.take_append_of_le_length hInside, wordsAt]

theorem wordsAt_withAggregate {i : Nat} (hAt : t.entries[i]? = some entry) (a : Aggregate)
    (j : Nat) :
    (t.withAggregate i entry a).wordsAt j = t.wordsAt j := by
  rw [wordsAt, position_withAggregate hAt]
  rfl

/-- An addition keeps the words of all entries, and an entry that it puts into the table
gets those of the key. -/
theorem Laid.wordsAt_absorb (h : Laid t) (hKey : Proper key)
    (hAdded : Table.absorb key hashed a t = .ok () t') :
    (∀ i < t.length, t'.wordsAt i = t.wordsAt i) ∧
      (t.length < t'.length → t'.wordsAt t.length = key.words) := by
  rcases absorb_ok_cases hAdded with ⟨i, entry, hAt, -, rfl⟩ | ⟨-, rfl⟩
  · exact ⟨fun j _ => wordsAt_withAggregate hAt _ j,
      fun hMore => absurd (length_withAggregate t i entry _) hMore.ne'⟩
  · exact ⟨(h.wordsAt_withStation hKey).2, fun _ => (h.wordsAt_withStation hKey).1⟩

/-- What holds of the numbers in a table however many words it has. Heads and links are always
exact, an entry knows the low bits of the position of its words, and the words themselves stay
where they were put. So the table is exact if its positions fit, which they do while the names are
short enough for its size. -/
structure Placed (t : Table hash) : Prop where
  linked : Linked t.size t.heads t.entries
  index : ∀ i < t.length, i.toUInt32.toNat = i ∧ i.toUInt32 ≠ noEntry
  keyStart : ∀ i entry, t.entries[i]? = some entry →
    entry.keyStart.toNat = t.position i % UInt32.size
  words : ∀ key hashed a t', Proper key → Table.absorb key hashed a t = .ok () t' →
    (∀ i < t.length, t'.wordsAt i = t.wordsAt i) ∧
      (t.length < t'.length → t'.wordsAt t.length = key.words)
  addressed_iff : Addressed t ↔ ∀ i < t.length, t.position i < UInt32.size
  addressed_of_short : ∀ bound, (∀ entry ∈ t.entries, entry.length ≤ bound) →
    Word.countFor bound * t.capacity ≤ UInt32.size → Addressed t

theorem Laid.placed (h : Laid t) : Placed t where
  linked := h.linked
  index := h.index
  keyStart _ _ hAt := h.toNat_keyStart hAt
  words _ _ _ _ hKey hAdded := h.wordsAt_absorb hKey hAdded
  addressed_iff := h.addressed_iff
  addressed_of_short _ hShort hPositions := h.addressed_of_short hShort hPositions

end StationStats.Table
