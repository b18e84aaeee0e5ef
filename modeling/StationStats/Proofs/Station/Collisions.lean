import StationStats.Proofs.Station.Positions
import StationStats.Proofs.Station.Refinement

/-!
The chains of the tables that additions and merges build, taken or refused. The links that a chain
follows lead downwards through exactly the entries of its slot, so the longest chain is as long as
the most stations are whose hashes leave the same remainder. This holds for any hash, and tables of
any size may have been merged into the table.
-/

namespace StationStats.Table

variable {hash : KeyHash} {t : Table hash}

/-- The tables that can be built: from an empty one by adding observations and by merging tables
that were built likewise. What an operation has done before it was refused stays done. -/
inductive Built : Table hash → Prop where
  | start {wanted : Nat} {t : Table hash} (h : withCapacity wanted = .ok t) : Built t
  | add {t : Table hash} (h : Built t) (o : Observation) : Built (stateAfter (observe o) t)
  | merge {t other : Table hash} (h : Built t) (hOther : Built other) :
      Built (stateAfter (mergeFrom other) t)

/-- What adding under the key of a name keeps, an observation keeps: if its name is too long for
a key, it is refused. -/
theorem observe_preserves {P : Table hash → Prop} {o : Observation} (h : P t)
    (hAbsorb : o.name.length ≤ keyBytes → ∀ t',
      absorb (Key.packed o.name) (hash (Key.pack o.name)) (Aggregate.single o.tenths) t =
        .ok () t' → P t') :
    P (stateAfter (observe o) t) := by
  by_cases hShort : o.name.length ≤ keyBytes
  · cases hAdded : observe o t with
    | error fault t' =>
        rw [stateAfter_of_error hAdded]
        rw [observe_eq hShort, Table.add] at hAdded
        exact eq_of_absorb_error hAdded ▸ h
    | ok _ t' =>
        rw [stateAfter_of_ok hAdded]
        rw [observe_eq hShort, Table.add] at hAdded
        exact hAbsorb hShort t' hAdded
  · have hRefused : observe o t = .error (.nameTooLong o.name.length) t := by
      simp only [observe, Key.ofName, if_neg hShort]
    rw [stateAfter_of_error hRefused]
    exact h

theorem Orderly.observe (h : Orderly keyBytes t) (o : Observation) :
    Orderly keyBytes (stateAfter (observe o) t) :=
  observe_preserves h fun hShort _ hAdded => h.absorb le_rfl hShort hAdded

theorem Built.orderly (h : Built t) : Orderly keyBytes t := by
  induction h with
  | start h =>
      obtain ⟨size, hSize, -, rfl⟩ := exists_ofSize_of_withCapacity h
      exact orderly_ofSize hSize keyBytes
  | add _ o ih => exact ih.observe o
  | merge _ _ ih ihOther => exact ih.mergeFrom le_rfl ihOther

/-- A table of the last size but two or a smaller one that was built is in good order. -/
theorem Built.valid (h : Built t) (hCapacity : t.capacity ≤ 142069021) : Valid t :=
  (h.orderly.within_of_capacity ((Nat.mul_le_mul_left _ hCapacity).trans_lt (by decide))).toValid

/-! ### Chains -/

/-- What a head leads to is made up of the entries of its slot. -/
theorem Valid.exists_members (h : Valid t) {place : Nat} {head : UInt32}
    (hHead : t.heads[place]? = some head) :
    ∃ slot : UInt32, slot.toNat = place ∧
      head = linkTo (members t.size t.entries slot t.entries.size) ∧
      chain t.entries head = members t.size t.entries slot t.entries.size := by
  have hPlace : place < t.size.slots.toNat := by
    have hInside := (Array.getElem?_eq_some_iff.mp hHead).1
    rwa [h.heads_size] at hInside
  have hSlot : place.toUInt32.toNat = place :=
    UInt32.toNat_ofNat_of_lt' (hPlace.trans t.size.slots.toNat_lt)
  have hMembers := h.linked.head place.toUInt32 (UInt32.lt_iff_toNat_lt.mpr (by rwa [hSlot]))
  rw [hSlot, hHead, Option.some_inj] at hMembers
  exact ⟨_, hSlot, hMembers, by rw [hMembers, h.linked.chain_eq h.length_lt le_rfl]⟩

/-- The chains of a table: each is a walk that ends, down through entries that are there, and
together they visit each entry once, in the chain of the slot of its hash. Its hash is that of its
words, and no two entries have the same words and the same length. -/
structure Chained (t : Table hash) : Prop where
  heads_size : t.heads.size = t.capacity
  walks : ∀ head ∈ t.heads, Walks t.entries head (chain t.entries head)
  descends : ∀ head ∈ t.heads, (chain t.entries head).Pairwise (· > ·)
  mem_iff : ∀ (place : Nat) (head : UInt32), t.heads[place]? = some head →
    ∀ i, i ∈ chain t.entries head ↔
    ∃ entry, t.entries[i]? = some entry ∧ (t.size.slot entry.hash).toNat = place
  once : ∀ i < t.length, ∃! place : Nat, ∃ head, t.heads[place]? = some head ∧
    i ∈ chain t.entries head
  hashed : ∀ entry ∈ t.entries, entry.hash = hash (t.key entry).words
  distinct : (t.entries.toList.map t.key).Nodup

theorem Valid.mem_chain_iff (h : Valid t) {place : Nat} {head : UInt32}
    (hHead : t.heads[place]? = some head) (i : Nat) :
    i ∈ chain t.entries head ↔ ∃ entry, t.entries[i]? = some entry ∧
      (t.size.slot entry.hash).toNat = place := by
  obtain ⟨slot, rfl, -, hChain⟩ := h.exists_members hHead
  rw [hChain, mem_members_iff]
  constructor
  · rintro ⟨-, entry, hAt, rfl⟩
    exact ⟨entry, hAt, rfl⟩
  · rintro ⟨entry, hAt, hSlot⟩
    exact ⟨(Array.getElem?_eq_some_iff.mp hAt).1, entry, hAt, UInt32.toNat_inj.mp hSlot⟩

theorem Valid.nodup_keys (h : Valid t) : (t.entries.toList.map t.key).Nodup := by
  apply List.Nodup.of_map Key.name
  rw [List.map_map]
  have hNames := h.distinct
  rwa [names, Listing.names, stations, List.map_map] at hNames

theorem Valid.chained (h : Valid t) : Chained t where
  heads_size := h.heads_size
  walks head hHead := by
    obtain ⟨place, hPlace⟩ := Array.mem_iff_getElem?.mp hHead
    obtain ⟨slot, -, hMembers, hChain⟩ := h.exists_members hPlace
    rw [hChain, hMembers]
    exact h.linked.walks h.length_lt slot le_rfl
  descends head hHead := by
    obtain ⟨place, hPlace⟩ := Array.mem_iff_getElem?.mp hHead
    obtain ⟨slot, -, -, hChain⟩ := h.exists_members hPlace
    rw [hChain]
    exact pairwise_members _
  mem_iff _ _ hHead := h.mem_chain_iff hHead
  once i hi := by
    have hAt : t.entries[i]? = some t.entries[i] := Array.getElem?_eq_getElem hi
    have hPlace : (t.size.slot t.entries[i].hash).toNat < t.heads.size := by
      rw [h.heads_size]
      exact (TableSize.exact_of_mem_all h.tabulated).slot_lt _
    have hHead := Array.getElem?_eq_getElem hPlace
    refine ⟨_, ⟨_, hHead, (h.mem_chain_iff hHead i).mpr ⟨_, hAt, rfl⟩⟩, ?_⟩
    rintro place ⟨head, hOther, hMem⟩
    obtain ⟨entry, hSame, rfl⟩ := (h.mem_chain_iff hOther i).mp hMem
    rw [Option.some_inj.mp (hAt.symm.trans hSame)]
  hashed entry hEntry := (h.stored entry hEntry).hashed
  distinct := h.nodup_keys

/-! ### The longest chain -/

/-- The stations whose hashes leave this remainder when divided by the number of slots. -/
def colliding (t : Table hash) (remainder : Nat) : List (List UInt8) :=
  t.names.filter fun name => (hash (Key.pack name)).toNat % t.capacity = remainder

/-- A slot has as many entries as there are stations whose hashes leave its number. -/
theorem Valid.length_members (h : Valid t) (slot : UInt32) :
    (members t.size t.entries slot t.entries.size).length = (t.colliding slot.toNat).length := by
  have hExact := TableSize.exact_of_mem_all h.tabulated
  have hIndexed : (List.range t.entries.size).map (t.entries[·]?) = t.entries.toList.map some := by
    apply List.ext_getElem
    · simp
    · simp
  calc (members t.size t.entries slot t.entries.size).length
      = (List.range t.entries.size).countP (inSlot t.size t.entries slot) := by
        rw [members, ← List.countP_eq_length_filter, List.countP_reverse]
    _ = ((List.range t.entries.size).map (t.entries[·]?)).countP
      (·.any fun entry => t.size.slot entry.hash == slot) := by
        rw [List.countP_map]
        rfl
    _ = t.entries.toList.countP fun entry => t.size.slot entry.hash == slot := by
        rw [hIndexed, List.countP_map]
        rfl
    _ = t.entries.toList.countP fun entry =>
      (hash (Key.pack (t.key entry).name)).toNat % t.capacity = slot.toNat := by
        apply List.countP_congr
        intro entry hEntry
        rw [beq_iff_eq, decide_eq_true_iff, ← UInt32.toNat_inj, hExact.toNat_slot,
          (h.stored entry (Array.mem_toList_iff.mp hEntry)).hash_eq, capacity]
    _ = (t.colliding slot.toNat).length := by
        rw [colliding, ← List.countP_eq_length_filter, names, Listing.names, stations, List.map_map,
          List.countP_map]
        rfl

theorem Valid.length_chain (h : Valid t) {place : Nat} {head : UInt32}
    (hHead : t.heads[place]? = some head) :
    (chain t.entries head).length = (t.colliding place).length := by
  obtain ⟨slot, rfl, -, hChain⟩ := h.exists_members hHead
  rw [hChain, h.length_members]

/-- The longest chain is that of some slot, and no slot has a longer one. -/
theorem Valid.longestChain_spec (h : Valid t) :
    (∃ head ∈ t.heads, t.longestChain = (chain t.entries head).length) ∧
      ∀ head ∈ t.heads, (chain t.entries head).length ≤ t.longestChain := by
  have hFold :
      t.longestChain =
        ((t.heads.toList.map fun head => (chain t.entries head).length).max?).getD 0 := by
    rw [longestChain, ← Array.foldl_toList, ← List.foldl_map, List.foldl_max, Nat.zero_max]
  have hSlots := (TableSize.exact_of_mem_all h.tabulated).slots_pos
  cases hMax : (t.heads.toList.map fun head => (chain t.entries head).length).max? with
  | none =>
      rw [List.max?_eq_none_iff, List.map_eq_nil_iff, ← List.length_eq_zero_iff,
        Array.length_toList, h.heads_size] at hMax
      exact absurd hMax hSlots.ne'
  | some longest =>
      rw [hMax, Option.getD_some] at hFold
      obtain ⟨hMem, hAll⟩ := List.max?_eq_some_iff.mp hMax
      rw [hFold]
      constructor
      · obtain ⟨head, hHead, rfl⟩ := List.mem_map.mp hMem
        exact ⟨head, Array.mem_toList_iff.mp hHead, rfl⟩
      · intro head hHead
        exact hAll _ (List.mem_map_of_mem (Array.mem_toList_iff.mpr hHead))

theorem length_colliding_le (t : Table hash) (remainder : Nat) :
    (t.colliding remainder).length ≤ t.length := by
  rw [← length_names]
  exact List.length_filter_le _ _

/-- No hash leaves the number of slots or more. -/
theorem Valid.colliding_eq_nil (h : Valid t) {remainder : Nat} (hOutside : t.capacity ≤ remainder) :
    t.colliding remainder = [] := by
  rw [colliding, List.filter_eq_nil_iff]
  intro name _ hSame
  have hBelow :=
    Nat.mod_lt (hash (Key.pack name)).toNat (TableSize.exact_of_mem_all h.tabulated).slots_pos
  exact absurd ((of_decide_eq_true hSame).symm.trans_lt hBelow) hOutside.not_gt

/-- A table that was built, of the last size but two or a smaller one, whatever the sizes of the
tables merged into it: its chains are walks that end and split its entries among them. So the
longest one is as long as the most stations whose hashes leave the same remainder, which is nothing
for an empty table and not more than there are stations. -/
theorem Built.chains_split_entries (h : Built t) (hCapacity : t.capacity ≤ 142069021) :
    Chained t ∧ t.names.Nodup ∧
      (∃ remainder, (t.colliding remainder).length = t.longestChain) ∧
      (∀ remainder, (t.colliding remainder).length ≤ t.longestChain) ∧
      (t.length = 0 → t.longestChain = 0) ∧ t.longestChain ≤ t.length := by
  have hValid := h.valid hCapacity
  obtain ⟨⟨head, hHead, hLongest⟩, hAll⟩ := hValid.longestChain_spec
  obtain ⟨place, hPlace⟩ := Array.mem_iff_getElem?.mp hHead
  rw [hValid.length_chain hPlace] at hLongest
  have hFew : t.longestChain ≤ t.length := hLongest.trans_le (length_colliding_le t place)
  refine ⟨hValid.chained, hValid.distinct, ⟨place, hLongest.symm⟩, fun remainder => ?_,
    fun hEmpty => Nat.le_zero.mp (hFew.trans_eq hEmpty), hFew⟩
  rcases Nat.lt_or_ge remainder t.capacity with hInside | hOutside
  · have hOwn := Array.getElem?_eq_getElem (hInside.trans_eq hValid.heads_size.symm)
    rw [← hValid.length_chain hOwn]
    exact hAll _ (Array.mem_of_getElem? hOwn)
  · rw [hValid.colliding_eq_nil hOutside]
    exact Nat.zero_le _

theorem Built.offerAll (h : Built t) (calls : List Observation) : Built (offerAll calls t) := by
  induction calls generalizing t with
  | nil => exact h
  | cons o rest ih => exact ih (h.add o)

/-- Ten names with the same hash in nine slots: the last one is refused, and the
others make up one chain. -/
theorem chains_split_ten_names :
    ∃ t : Table fun _ => 7, Built t ∧ t.capacity = 9 ∧ t.length = 9 ∧ t.longestChain = 9 ∧
      Chained t := by
  have hCalls : Recordable ((List.range 10).map fun n => ⟨List.replicate n 0, n⟩) :=
    ⟨by decide, by decide⟩
  obtain ⟨hFollows, hSize⟩ := follows_offerAll (fun _ => 7)
    (show ⟨9, 0x38e38e39, 1⟩ ∈ TableSize.all by decide) (by decide) hCalls
  have hBuilt : Built (ofSize ⟨9, 0x38e38e39, 1⟩ : Table fun _ => 7) :=
    .start (show withCapacity 9 = .ok _ from rfl)
  generalize hTable : Table.offerAll _ _ = t at hFollows hSize
  have hReached : Built t := hTable ▸ hBuilt.offerAll _
  have hCapacity : t.capacity = 9 := by rw [capacity, hSize]; rfl
  have hNames := hFollows.names
  rw [hCapacity] at hNames
  have hLength : t.length = 9 := by
    rw [← length_names, hNames]
    decide
  obtain ⟨hChained, -, -, hColliding, -, hFew⟩ :=
    hReached.chains_split_entries (by rw [hCapacity]; decide)
  have hSame : (t.colliding 7).length = 9 := by
    rw [colliding, hCapacity, hNames]
    decide
  exact ⟨t, hReached, hCapacity, hLength,
    Nat.le_antisymm (hFew.trans_eq hLength) (hSame.symm.trans_le (hColliding 7)),
    hChained⟩

end StationStats.Table
