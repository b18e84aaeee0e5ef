import Mathlib.Data.Nat.Digits.Defs
import StationStats.Proofs.Station.Addressing
import StationStats.Proofs.Station.Decoding

/-!
Tables with room for more stations than their names have positions. Up to the last size but two
every position is exact, and so it is in a larger table as long as the names are short. In the last
two sizes there is a position too many for names of the greatest length: the entry that gets it
reads back the words of the first entry, and its station is not found. So the station is put in
again whenever it comes, until the table is full.
-/

namespace StationStats

/-- If the words of two names are the same, the shorter name begins the longer one. -/
theorem Key.prefix_of_pack_eq {first second : List UInt8} (h : pack first = pack second)
    (hLength : first.length ≤ second.length) : first <+: second := by
  rw [← flatMap_toBytes_pack first, ← flatMap_toBytes_pack second, h]
  exact List.take_prefix_take_left hLength

namespace Table

variable {hash : KeyHash} {base t t' : Table hash} {words : Nat} {name : List UInt8}
  {hashed : UInt32} {a : Aggregate} {o : Observation}

/-! ### No position left -/

/-- All positions are taken, by names of so many words each. -/
structure Exhausted (t : Table hash) (words : Nat) : Prop where
  valid : Valid t
  laid : Laid t
  sized : ∀ entry ∈ t.entries, Word.countFor entry.length = words
  count : words * t.length = UInt32.size

/-- Entries of so many words each follow in a table whose positions are all taken. -/
structure Overrun (base t : Table hash) (words : Nat) : Prop where
  exhausted : Exhausted base words
  laid : Laid t
  size_eq : t.size = base.size
  keys : base.keys.toList <+: t.keys.toList
  sized : ∀ entry ∈ t.entries, Word.countFor entry.length = words

theorem Exhausted.overrun (h : Exhausted t words) : Overrun t t words where
  exhausted := h
  laid := h.laid
  size_eq := rfl
  keys := List.prefix_rfl
  sized := h.sized

theorem position_eq_mul (hSized : ∀ entry ∈ t.entries, Word.countFor entry.length = words) {i : Nat}
    (hi : i ≤ t.length) : t.position i = words * i := by
  have hEach : ∀ length ∈ (t.entries.toList.map Entry.length).take i,
      Word.countFor length = words := by
    intro length hLength
    obtain ⟨entry, hEntry, rfl⟩ := List.mem_map.mp (List.mem_of_mem_take hLength)
    exact hSized entry (Array.mem_toList_iff.mp hEntry)
  have hNumber : ((t.entries.toList.map Entry.length).take i).length = i := by
    rw [List.length_take, List.length_map, Array.length_toList]
    exact Nat.min_eq_left hi
  rw [position, List.map_congr_left hEach, List.map_const', List.sum_replicate_nat, hNumber,
    Nat.mul_comm]

theorem Exhausted.pos (h : Exhausted t words) : 0 < words ∧ 0 < t.length := by
  have hSome : 0 < words * t.length := h.count ▸ (by decide : 0 < UInt32.size)
  exact ⟨Nat.pos_of_mul_pos_right hSome, Nat.pos_of_mul_pos_left hSome⟩

theorem Exhausted.size_keys (h : Exhausted t words) : t.keys.size = UInt32.size := by
  rw [h.laid.keys_size, position_eq_mul h.sized le_rfl, h.count]

/-- The words of the names stand one behind the other. -/
theorem Exhausted.take_keys (h : Exhausted t words) {i : Nat} (hi : i < t.length) :
    ∃ name ∈ t.names, (t.keys.toList.drop (words * i)).take words = Key.pack name := by
  obtain ⟨entry, hAt⟩ : ∃ entry, t.entries[i]? = some entry :=
    ⟨_, Array.getElem?_eq_getElem hi⟩
  have hEntry := Array.mem_of_getElem? hAt
  have hInside : words * i < UInt32.size := by
    rw [← h.count]
    exact Nat.mul_lt_mul_of_pos_left hi h.pos.1
  refine ⟨_, mem_names_of_mem_entries hEntry, ?_⟩
  calc (t.keys.toList.drop (words * i)).take words = (t.key entry).words := by
        rw [h.laid.words_key_eq hAt, position_eq_mul h.sized hi.le, Nat.mod_eq_of_lt hInside,
          h.sized entry hEntry]
    _ = Key.pack (t.key entry).name := congrArg Key.words (h.valid.stored entry hEntry).key

/-- Places that are cut to their low bits go through the positions again and again, and what is read
back there are the words of the names that took them. -/
theorem Overrun.exists_readBack (h : Overrun base t words) {entry : Entry}
    (hEntry : entry ∈ t.entries) :
    ∃ name ∈ base.names, (t.key entry).words = Key.pack name := by
  obtain ⟨i, hAt⟩ := Array.mem_iff_getElem?.mp hEntry
  have hAgain : i % base.length < base.length := Nat.mod_lt i h.exhausted.pos.2
  obtain ⟨name, hName, hWords⟩ := h.exhausted.take_keys hAgain
  have hPlace : t.position i % UInt32.size = words * (i % base.length) := by
    rw [position_eq_mul h.sized (Array.getElem?_eq_some_iff.mp hAt).1.le, ← h.exhausted.count,
      Nat.mul_mod_mul_left]
  have hInside : words * (i % base.length) + words ≤ base.keys.toList.length := by
    rw [Array.length_toList, h.exhausted.size_keys, ← h.exhausted.count, ← Nat.mul_succ]
    exact Nat.mul_le_mul_left words hAgain
  obtain ⟨more, hMore⟩ := h.keys
  refine ⟨name, hName, ?_⟩
  rw [h.laid.words_key_eq hAt, hPlace, h.sized entry hEntry, ← hMore,
    List.drop_append_of_le_length (by omega), List.take_append_of_le_length, hWords]
  rw [List.length_drop]
  omega

/-- A name with other words than those that took the positions is never found. -/
theorem Overrun.find?_eq_none (h : Overrun base t words)
    (hApart : ∀ other ∈ base.names, Key.pack other ≠ Key.pack name) (hashed : UInt32) :
    t.find? (Key.packed name) hashed = none := by
  rw [find?_eq_members h.laid.tabulated h.laid.length_le h.laid.linked, List.find?_eq_none]
  intro i _ hFound
  simp only [Option.any_eq_true, Bool.and_eq_true, beq_iff_eq] at hFound
  obtain ⟨entry, hAt, -, hWords⟩ := hFound
  obtain ⟨other, hOther, hRead⟩ := h.exists_readBack (Array.mem_of_getElem? hAt)
  exact hApart other hOther (hRead.symm.trans hWords)

theorem Overrun.withStation (h : Overrun base t words) (hShort : name.length ≤ keyBytes)
    (hSized : Word.countFor name.length = words) (hRoom : t.length < t.capacity) :
    Overrun base (t.withStation (Key.packed name) hashed a) words where
  exhausted := h.exhausted
  laid := h.laid.withStation (proper_packed hShort) hRoom
  size_eq := h.size_eq
  keys := by
    have hKeys : (t.withStation (Key.packed name) hashed a).keys.toList =
        t.keys.toList ++ Key.pack name := Array.toList_appendList
    rw [hKeys]
    exact h.keys.trans (List.prefix_append _ _)
  sized := forall_mem_withStation h.sized hSized

/-- The name fits a key, has as many words as those that took the positions, and other ones. -/
structure Lost (base : Table hash) (words : Nat) (name : List UInt8) : Prop where
  short : name.length ≤ keyBytes
  sized : Word.countFor name.length = words
  apart : ∀ other ∈ base.names, Key.pack other ≠ Key.pack name

/-- A reading of such a station is put in as that of a new one, as long as there is room. -/
theorem Overrun.observe_eq (h : Overrun base t words) (hLost : Lost base words o.name)
    (hRoom : t.length < t.capacity) :
    observe o t = .ok () (t.withStation (Key.packed o.name) (hash (Key.pack o.name))
      (Aggregate.single o.tenths)) := by
  rw [Table.observe_eq hLost.short, Table.add]
  exact absorb_eq_withStation (h.find?_eq_none hLost.apart _) hRoom _

/-- This goes on until the table is full. -/
theorem Overrun.exists_observeAll (h : Overrun base t words) (hLost : Lost base words o.name)
    {n : Nat} (hRoom : t.length + n ≤ t.capacity) :
    ∃ t', observeAll (List.replicate n o) t = .ok () t' ∧ Overrun base t' words ∧
      t'.length = t.length + n := by
  induction n generalizing t with
  | zero => exact ⟨t, rfl, h, rfl⟩
  | succ n ih =>
      have hHere : t.length < t.capacity := by omega
      have hNext : Overrun base (t.withStation (Key.packed o.name) (hash (Key.pack o.name))
          (Aggregate.single o.tenths)) words := h.withStation hLost.short hLost.sized hHere
      obtain ⟨t', hRest, hStill, hLength⟩ := ih hNext (by
        rw [length_withStation]
        exact Nat.le_trans (by omega) hRoom)
      rw [length_withStation] at hLength
      exact ⟨t', observeAll_cons_ok_iff.mpr ⟨_, h.observe_eq hLost hHere, hRest⟩, hStill, by omega⟩

theorem Overrun.observe_eq_error (h : Overrun base t words) (hLost : Lost base words o.name)
    (hFull : t.capacity ≤ t.length) : observe o t = .error (.tableFull t.capacity) t := by
  rw [Table.observe_eq hLost.short, Table.add, Table.absorb, Key.words_packed,
    h.find?_eq_none hLost.apart]
  exact if_neg hFull.not_gt

/-- The entry at an index has lost the words of its name: they stand at the first position that does
not fit, the entry takes them to be at the start and reads back other words, and the name is not
found. -/
structure Misplaced (t : Table hash) (i : Nat) (name : List UInt8) : Prop where
  position : t.position i = UInt32.size
  wordsAt : t.wordsAt i = Key.pack name
  readBack : ∃ entry, t.entries[i]? = some entry ∧ entry.keyStart = 0 ∧
    (t.key entry).words ≠ Key.pack name
  lost : t.get? name = none

theorem Misplaced.not_addressed {i : Nat} (h : Misplaced t i name) : ¬ Addressed t := by
  intro hExact
  obtain ⟨entry, hAt, -, hOther⟩ := h.readBack
  exact hOther ((hExact.readBack i entry hAt).trans h.wordsAt)

/-- The first name that comes when all positions are taken loses its words. -/
theorem Exhausted.misplaced (h : Exhausted t words) (hLost : Lost t words name)
    (hRoom : t.length < t.capacity) :
    Misplaced (t.withStation (Key.packed name) hashed a) t.length name := by
  have hNext : Overrun t (t.withStation (Key.packed name) hashed a) words :=
    h.overrun.withStation hLost.short hLost.sized hRoom
  have hAt := getElem?_withStation t (Key.packed name) hashed a
  obtain ⟨other, hOther, hRead⟩ := hNext.exists_readBack (Array.mem_of_getElem? hAt)
  have hStart : (t.newEntry (Key.packed name) hashed a).keyStart = 0 := by
    rw [newEntry, h.size_keys]
    rfl
  constructor
  · rw [position_withStation le_rfl, ← h.laid.keys_size, h.size_keys]
  · exact (h.laid.wordsAt_withStation (proper_packed hLost.short)).1
  · exact ⟨_, hAt, hStart, hRead ▸ hLost.apart other hOther⟩
  · simp only [get?, Key.ofName_eq hLost.short, hNext.find?_eq_none hLost.apart, Option.bind_none]

/-! ### As many names as there are positions -/

/-- Observations of different stations, the names of which have so many words each and take all
positions. -/
structure Exhausting (words : Nat) (observations : List Observation) : Prop where
  storable : ∀ o ∈ observations, o.Storable
  sized : ∀ o ∈ observations, Word.countFor o.name.length = words
  distinct : (observations.map Observation.name).Nodup
  few : observations.length < 2 ^ 31
  count : words * observations.length = UInt32.size

variable {observations : List Observation} {wanted : Nat} {start : Table hash}

theorem Exhausting.recordable (h : Exhausting words observations) : Recordable observations where
  each := h.storable
  few := h.few

theorem Built.observeAll (h : Built t) (hAdded : Table.observeAll observations t = .ok () t') :
    Built t' := by
  induction observations generalizing t with
  | nil =>
      cases hAdded
      exact h
  | cons o rest ih =>
      obtain ⟨between, hFirst, hRest⟩ := observeAll_cons_ok_iff.mp hAdded
      exact ih (stateAfter_of_ok hFirst ▸ h.add o) hRest

/-- A new table with room for them takes all of them, and then there are no positions left. -/
theorem Exhausting.exists_observeAll (h : Exhausting words observations)
    (hStart : withCapacity wanted = .ok start) (hRoom : observations.length ≤ start.capacity) :
    ∃ t : Table hash, observeAll observations start = .ok () t ∧ Built t ∧ Exhausted t words ∧
      t.size = start.size ∧ t.length = observations.length ∧
      ∀ name, name ∈ t.names ↔ name ∈ observations.map Observation.name := by
  obtain ⟨size, hSize, -, rfl⟩ := exists_ofSize_of_withCapacity hStart
  have hTallies := Listing.tallies_replay observations
  have hLength : (Listing.replay observations []).length = observations.length := by
    rw [length_replay, h.distinct.dedup, List.length_map]
  have hEach : ∀ name ∈ Listing.names (Listing.replay observations []),
      Word.countFor name.length = words := by
    intro name hName
    obtain ⟨o, ho, rfl⟩ := List.mem_map.mp ((hTallies.mem_names name).mp hName)
    exact h.sized o ho
  have hWords : wordsOf (Listing.names (Listing.replay observations [])) = UInt32.size := by
    rw [wordsOf, List.map_congr_left hEach, List.map_const', List.sum_replicate_nat, Listing.names,
      List.length_map, hLength, Nat.mul_comm]
    exact h.count
  have hFits :
      Fits (ofSize size : Table hash).size (Listing.merge (ofSize size : Table hash).stations
      (observations.map Observation.station)) := by
    rw [stations_ofSize]
    exact ⟨hLength.trans_le hRoom, countOf_replay_lt h.recordable, hWords.le⟩
  have hAmounts := amountsTo_observations h.recordable
  obtain ⟨t, hAdded, hValid, hStations, hSame⟩ :=
    (valid_ofSize hSize : Valid (ofSize size : Table hash)).exists_absorbEach
      (by simp [stations_ofSize]) hAmounts.short hAmounts.credible hFits
  rw [stations_ofSize] at hStations
  rw [← observeAll_eq fun o ho => (h.storable o ho).short] at hAdded
  have hBuilt := (Built.start hStart).observeAll hAdded
  have hNumber : t.length = observations.length := by
    rw [← length_stations, hStations]
    exact hLength
  have hExhausted : Exhausted t words := by
    refine ⟨hValid, hBuilt.laid, fun entry hEntry => ?_, by rw [hNumber, h.count]⟩
    have hName := mem_names_of_mem_entries hEntry
    rw [Table.names, hStations] at hName
    have hKey := congrArg Key.length (hValid.stored entry hEntry).key
    exact (congrArg Word.countFor hKey).trans (hEach _ hName)
  refine ⟨t, hAdded, hBuilt, hExhausted, hSame, hNumber, fun name => ?_⟩
  rw [Table.names, hStations]
  exact hTallies.mem_names name

/-- One more name, as long as its words allow and begun by none of the others. -/
structure Straggling (words : Nat) (observations : List Observation)
    (name : List UInt8) : Prop where
  length : name.length = 8 * words
  short : name.length ≤ keyBytes
  apart : ∀ first ∈ observations, ¬ first.name <+: name

theorem Straggling.lost (h : Straggling words observations name)
    (hAll : Exhausting words observations)
    (hNames : ∀ other, other ∈ t.names ↔ other ∈ observations.map Observation.name) :
    Lost t words name where
  short := h.short
  sized := by
    rw [Word.countFor, h.length]
    omega
  apart other hOther hPacked := by
    obtain ⟨first, hFirst, rfl⟩ := List.mem_map.mp ((hNames other).mp hOther)
    have hSized := hAll.sized first hFirst
    rw [Word.countFor] at hSized
    have hLength : first.name.length ≤ name.length := by
      rw [h.length]
      omega
    exact h.apart first hFirst (Key.prefix_of_pack_eq hPacked hLength)

/-- One more observation, of such a name, is taken without its name being found afterwards. -/
theorem Exhausting.exists_misplaced (h : Exhausting words observations)
    (hStart : withCapacity wanted = .ok start) (hRoom : observations.length < start.capacity)
    (hStraggling : Straggling words observations o.name) :
    ∃ t t', Table.observeAll observations start = .ok () t ∧ Table.observe o t = .ok () t' ∧
      Built t' ∧ t'.size = start.size ∧ t'.length = observations.length + 1 ∧
      Misplaced t' observations.length o.name := by
  obtain ⟨t, hAll, hBuilt, hExhausted, hSame, hLength, hNames⟩ :=
    h.exists_observeAll hStart hRoom.le
  have hLost := hStraggling.lost h hNames
  have hPlace : t.length < t.capacity := by
    rw [hLength, capacity, hSame]
    exact hRoom
  have hObserved := hExhausted.overrun.observe_eq hLost hPlace
  refine ⟨t, _, hAll, hObserved, stateAfter_of_ok hObserved ▸ hBuilt.add o, hSame, ?_, ?_⟩
  · rw [length_withStation, hLength]
  · rw [← hLength]
    exact hExhausted.misplaced hLost hPlace

/-- Observed again and again, it takes the rest of the table, which is full in the end although it
lists only one name more than these observations have. -/
theorem Exhausting.exists_tableFull (h : Exhausting words observations)
    (hStart : withCapacity wanted = .ok start) (hRoom : observations.length ≤ start.capacity)
    (hStraggling : Straggling words observations o.name) {n : Nat}
    (hMany : start.capacity < observations.length + n) :
    ∃ t, observeAll (observations ++ List.replicate n o) start =
      .error (.tableFull start.capacity) t := by
  obtain ⟨t, hAll, -, hExhausted, hSame, hLength, hNames⟩ := h.exists_observeAll hStart hRoom
  have hLost := hStraggling.lost h hNames
  have hCapacity : start.capacity = t.capacity := by rw [capacity, capacity, hSame]
  rw [hCapacity] at hRoom hMany ⊢
  obtain ⟨full, hRest, hOverrun, hFull⟩ :=
    hExhausted.overrun.exists_observeAll hLost (n := t.capacity - t.length) (by omega)
  have hSize : full.capacity = t.capacity := by rw [capacity, capacity, hOverrun.size_eq]
  have hRefused := hOverrun.observe_eq_error hLost (by omega)
  rw [hSize] at hRefused
  -- The rest of the table, one reading too many, and those that are not looked at any more.
  obtain ⟨k, rfl⟩ : ∃ k, n = (t.capacity - t.length) + (k + 1) :=
    ⟨n - (t.capacity - t.length) - 1, by omega⟩
  refine ⟨full, ?_⟩
  rw [List.replicate_add, List.replicate_succ]
  have hBefore := observeAll_append_ok_iff.mpr ⟨t, hAll, hRest⟩
  rw [← List.append_assoc]
  exact observeAll_append_eq_error hBefore hRefused

/-! ### A crowd of stations -/

/-- A byte so many times, and a number in decimal digits. -/
def numberedName (width : Nat) (b : UInt8) (i : Nat) : List UInt8 :=
  List.replicate width b ++ (Decimal.digits i).map fun c => c.toNat.toUInt8

/-- For each of the bytes, one observation of each of as many stations as stand beside it. Their
names begin with the byte and are numbered from zero on. -/
def crowd (width : Nat) (groups : List (UInt8 × Nat)) : List Observation :=
  groups.flatMap fun group =>
    (List.range group.2).map fun i => ⟨numberedName width group.1 i, 0⟩

theorem head?_numberedName {width : Nat} (hSome : 0 < width) (b : UInt8) (i : Nat) :
    (numberedName width b i).head? = some b := by
  obtain ⟨rest, rfl⟩ := Nat.exists_eq_succ_of_ne_zero hSome.ne'
  rfl

theorem numberedName_injective (width : Nat) (b : UInt8) :
    Function.Injective (numberedName width b) := by
  -- The digits are characters of one byte, so they can be told from their bytes, and the number
  -- from its digits.
  have hBack (n : Nat) : ((Decimal.digits n).map fun c => c.toNat.toUInt8).map
      (fun byte => Char.ofNat byte.toNat) = Decimal.digits n := by
    rw [List.map_map]
    refine (List.map_congr_left fun c hDigit => ?_).trans (List.map_id _)
    have hSmall : c.toNat < UInt8.size := by
      have hRange := Tenths.isDigit_of_mem_digits hDigit
      rw [Char.isDigit_iff_toNat] at hRange
      exact hRange.2.trans_lt (by decide)
    rw [Function.comp_apply, Nat.toUInt8_eq, UInt8.toNat_ofNat_of_lt' hSmall, Char.ofNat_toNat, id]
  intro i j hSame
  have hDigits : Decimal.digits i = Decimal.digits j := by
    rw [← hBack i, List.append_cancel_left hSame, hBack j]
  rw [Tenths.digits_eq_toDigits, Tenths.digits_eq_toDigits] at hDigits
  calc i = Nat.ofDigitChars 10 (Nat.toDigits 10 i) 0 := Nat.ofDigitChars_ten_toDigits.symm
    _ = j := by rw [hDigits, Nat.ofDigitChars_ten_toDigits]

theorem length_numberedName (width : Nat) (b : UInt8) {i : Nat} (h : i < 100000000) :
    width < (numberedName width b i).length ∧ (numberedName width b i).length ≤ width + 8 := by
  have hSome : 0 < (Decimal.digits i).length := by
    rw [Tenths.digits_eq_toDigits]
    exact List.length_pos_iff.mpr Nat.toDigits_ne_nil
  have hFew : (Decimal.digits i).length ≤ 8 := by
    rw [Tenths.digits_eq_toDigits]
    exact Nat.toDigits_length 10 i 8 (by decide) h
  rw [numberedName, List.length_append, List.length_replicate, List.length_map]
  omega

variable {width : Nat} {groups : List (UInt8 × Nat)}

theorem mem_crowd_iff : o ∈ crowd width groups ↔
    ∃ group ∈ groups, ∃ i < group.2, o = ⟨numberedName width group.1 i, 0⟩ := by
  simp only [crowd, List.mem_flatMap, List.mem_map, List.mem_range, eq_comm]

theorem length_crowd (width : Nat) (groups : List (UInt8 × Nat)) :
    (crowd width groups).length = (groups.map Prod.snd).sum := by
  simp only [crowd, List.length_flatMap, List.length_map, List.length_range]

theorem nodup_names_crowd (hSome : 0 < width) (h : (groups.map Prod.fst).Nodup) :
    ((crowd width groups).map Observation.name).Nodup := by
  rw [crowd, List.map_flatMap, List.nodup_flatMap]
  constructor
  · intro group _
    rw [List.map_map]
    exact List.nodup_range.map (numberedName_injective width group.1)
  · -- The names of two groups have different first bytes.
    refine (List.pairwise_map.mp h).imp fun {group other} hApart name hName hOther => ?_
    simp only [List.map_map, List.mem_map] at hName hOther
    obtain ⟨i, -, rfl⟩ := hName
    obtain ⟨j, -, hSame⟩ := hOther
    have hHeads := congrArg List.head? hSame.symm
    simp only [Function.comp_apply, head?_numberedName hSome] at hHeads
    exact hApart (Option.some_inj.mp hHeads)

/-- Numbers of eight digits at most make names of the same number of words, so that few enough
groups take all positions. -/
theorem exhausting_crowd (hSome : 0 < width) (hWidth : width + 8 = 8 * words)
    (hShort : width + 8 ≤ keyBytes) (hBytes : (groups.map Prod.fst).Nodup)
    (hNumbers : ∀ group ∈ groups, group.2 ≤ 100000000) (hFew : (groups.map Prod.snd).sum < 2 ^ 31)
    (hCount : words * (groups.map Prod.snd).sum = UInt32.size) :
    Exhausting words (crowd width groups) where
  storable o ho := by
    obtain ⟨group, hGroup, i, hi, rfl⟩ := mem_crowd_iff.mp ho
    have hLength := length_numberedName width group.1 (hi.trans_le (hNumbers group hGroup))
    have hReading : Tenths.Fits UInt16.size 0 := by decide
    exact ⟨hLength.2.trans hShort, hReading⟩
  sized o ho := by
    obtain ⟨group, hGroup, i, hi, rfl⟩ := mem_crowd_iff.mp ho
    have hLength := length_numberedName width group.1 (hi.trans_le (hNumbers group hGroup))
    simp only [Word.countFor]
    omega
  distinct := nodup_names_crowd hSome hBytes
  few := by rwa [length_crowd]
  count := by rwa [length_crowd]

/-- A name of another byte is begun by none of the crowd. -/
theorem straggling_replicate (hSome : 0 < width) (hShort : 8 * words ≤ keyBytes) {b : UInt8}
    (hOther : ∀ group ∈ groups, group.1 ≠ b) :
    Straggling words (crowd width groups) (List.replicate (8 * words) b) where
  length := List.length_replicate
  short := List.length_replicate.trans_le hShort
  apart first hFirst := by
    rintro ⟨rest, hRest⟩
    obtain ⟨group, hGroup, i, -, rfl⟩ := mem_crowd_iff.mp hFirst
    have hMem : group.1 ∈ List.replicate (8 * words) b := by
      rw [← hRest]
      exact List.mem_append_left rest (List.mem_of_head? (head?_numberedName hSome group.1 i))
    exact hOther group hGroup (List.eq_of_mem_replicate hMem)

/-- As many stations with names of sixteen words as there are positions for. -/
def multitude : List Observation := crowd 120 [(97, 100000000), (98, 100000000), (99, 68435456)]

/-- One more station, the name of which is of the greatest length, too. -/
def straggler : Observation := { name := List.replicate 128 100, tenths := 10 }

theorem exhausting_multitude : Exhausting 16 multitude :=
  exhausting_crowd (by decide) (by decide) (by decide) (by decide) (by decide) (by decide)
    (by decide)

theorem length_multitude : multitude.length = 268435456 := length_crowd _ _

theorem straggling_straggler : Straggling 16 multitude straggler.name :=
  straggling_replicate (by decide) (by decide) (by decide)

/-- A table with more room than there are positions for the longest names loses one of these. -/
theorem exists_misplaced (hash : KeyHash) {wanted : Nat} {start : Table hash}
    (hStart : withCapacity wanted = .ok start) (hRoom : 268435456 < start.capacity) :
    ∃ t t', observeAll multitude start = .ok () t ∧ observe straggler t = .ok () t' ∧ Built t' ∧
      t'.size = start.size ∧ t'.length = 268435457 ∧ Misplaced t' 268435456 straggler.name := by
  rw [← length_multitude] at hRoom
  obtain ⟨t, t', hAll, hObserved, hBuilt, hSize, hLength, hLost⟩ :=
    exhausting_multitude.exists_misplaced hStart hRoom straggling_straggler
  rw [length_multitude] at hLength hLost
  exact ⟨t, t', hAll, hObserved, hBuilt, hSize, hLength, hLost⟩

/-- For any hash and up to the largest size, whatever is added to tables of the size or merged into
them: heads and links are exact and every entry knows the low bits of its position. The positions
themselves are exact for all tables of the size just if it is none of the last two. In these, a
table is exact as long as its last position fits. -/
theorem built_addressed_iff (hash : KeyHash) {wanted : Nat} (h : wanted ≤ 733045421) :
    ∃ start : Table hash, withCapacity wanted = .ok start ∧
      (∀ t : Table hash, Built t → t.size = start.size → Placed t) ∧
      ((∀ t : Table hash, Built t → t.size = start.size → Addressed t) ↔ wanted ≤ 142069021) := by
  obtain ⟨size, hSize, hLeast, hEnough, hSmallest⟩ := TableSize.exists_least h
  have hStart : (withCapacity wanted : Except Fault (Table hash)) = .ok (ofSize size) := by
    rw [withCapacity, hLeast]
  refine ⟨ofSize size, hStart, fun t hBuilt _ => hBuilt.laid.placed, ?_, ?_⟩
  · intro hAll
    by_contra hLarge
    have hNext : ∀ size ∈ TableSize.all, 142069021 < size.slots.toNat →
      268435456 < size.slots.toNat := by decide
    obtain ⟨_, t, -, -, hBuilt, hSame, -, hLost⟩ :=
      exists_misplaced hash hStart (hNext size hSize ((not_le.mp hLarge).trans_le hEnough))
    exact hLost.not_addressed (hAll t hBuilt hSame)
  · intro hWanted t hBuilt hSame
    have hSlots : size.slots.toNat ≤ 142069021 :=
      hSmallest ⟨142069021, 0xf1da390b, 27⟩ (by decide) hWanted
    refine hBuilt.laid.addressed_of_short hBuilt.laid.short ?_
    rw [capacity, hSame]
    exact (Nat.mul_le_mul_left _ hSlots).trans (by decide)

/-- The last number of stations for which all positions are exact, and the next one. -/
theorem built_addressed_iff_last_but_two :
    (∃ start : Table KeyHash.fnv1a, withCapacity 142069021 = .ok start ∧
      ∀ t : Table KeyHash.fnv1a, Built t → t.size = start.size → Addressed t) ∧
    ∃ start : Table KeyHash.fnv1a, withCapacity 142069022 = .ok start ∧
      ¬ ∀ t : Table KeyHash.fnv1a, Built t → t.size = start.size → Addressed t := by
  obtain ⟨start, hStart, -, hExact⟩ :=
    built_addressed_iff KeyHash.fnv1a (show 142069021 ≤ 733045421 by decide)
  obtain ⟨next, hNext, -, hOutgrown⟩ :=
    built_addressed_iff KeyHash.fnv1a (show 142069022 ≤ 733045421 by decide)
  exact ⟨⟨start, hStart, hExact.mpr le_rfl⟩, next, hNext,
    fun hAll => absurd (hOutgrown.mp hAll) (by decide)⟩

/-- In a table of the last size but one, stations with names of sixteen words take all positions.
The one that comes after them is not found, although it was taken. -/
theorem last_station_lost :
    ∃ start t t' : Table KeyHash.fnv1a, withCapacity 142069022 = .ok start ∧
      observeAll multitude start = .ok () t ∧ observe straggler t = .ok () t' ∧
        t'.length = 268435457 ∧
      Misplaced t' 268435456 straggler.name ∧ ¬ Addressed t' := by
  have hStart : (withCapacity 142069022 : Except Fault (Table KeyHash.fnv1a)) =
      .ok (ofSize ⟨294594427, 0x74a2507d, 27⟩) := rfl
  obtain ⟨t, t', hAll, hObserved, -, -, hLength, hLost⟩ :=
    exists_misplaced KeyHash.fnv1a hStart (by decide)
  exact ⟨_, t, t', hStart, hAll, hObserved, hLength, hLost, hLost.not_addressed⟩

end Table

end StationStats
