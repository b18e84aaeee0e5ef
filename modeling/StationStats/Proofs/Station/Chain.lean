import Mathlib.Data.List.Basic
import StationStats.Proofs.Station.TableSize
import StationStats.Station.Table

/-!
The chains of a table. The chain of a slot visits exactly the entries whose hashes have that slot,
latest first, because every head and every link leads to the latest such entry before it. Changing
an aggregate leaves all chains alone, and a new entry goes in front of the chain of its own slot.
-/

namespace StationStats.Table

/-- The entry at an index has a hash with this slot. -/
def inSlot (size : TableSize) (entries : Array Entry) (slot : UInt32) (i : Nat) : Bool :=
  entries[i]?.any fun entry => size.slot entry.hash == slot

/-- The entries of a slot before an index, latest first. -/
def members (size : TableSize) (entries : Array Entry) (slot : UInt32) (bound : Nat) : List Nat :=
  (List.range bound).reverse.filter (inSlot size entries slot)

/-- The link to the first of some entries. -/
def linkTo : List Nat → UInt32
  | [] => noEntry
  | i :: _ => i.toUInt32

/-- Each head leads to the latest entry of its slot, and each entry to the one
of its slot before it. -/
structure Linked (size : TableSize) (heads : Array UInt32) (entries : Array Entry) : Prop where
  head : ∀ slot : UInt32, slot < size.slots →
    heads[slot.toNat]? = some (linkTo (members size entries slot entries.size))
  earlier : ∀ i entry, entries[i]? = some entry →
    entry.earlier = linkTo (members size entries (size.slot entry.hash) i)

section Members

variable {size : TableSize} {entries : Array Entry} {slot : UInt32}

theorem inSlot_iff {i : Nat} :
    inSlot size entries slot i = true ↔ ∃ entry, entries[i]? = some entry ∧
      size.slot entry.hash = slot := by
  simp [inSlot, Option.any_eq_true]

theorem mem_members_iff {bound i : Nat} :
    i ∈ members size entries slot bound ↔
      i < bound ∧ ∃ entry, entries[i]? = some entry ∧ size.slot entry.hash = slot := by
  rw [members, List.mem_filter, List.mem_reverse, List.mem_range, inSlot_iff]

@[simp] theorem members_zero : members size entries slot 0 = [] := rfl

/-- One more entry goes in front if it has the slot. -/
theorem members_succ (n : Nat) :
    members size entries slot (n + 1) =
      if inSlot size entries slot n then n :: members size entries slot n
      else members size entries slot n := by
  rw [members, List.range_succ, List.reverse_append, List.reverse_singleton, List.singleton_append,
    List.filter_cons, members]

/-- Only the hashes count. -/
theorem members_congr {entries' : Array Entry} {bound : Nat}
    (h : ∀ i < bound, entries'[i]?.map Entry.hash = entries[i]?.map Entry.hash) :
    members size entries' slot bound = members size entries slot bound := by
  apply List.filter_congr
  intro i hi
  have hHash := h i (by simpa using hi)
  have hAny (entries : Array Entry) : inSlot size entries slot i =
      (entries[i]?.map Entry.hash).any (size.slot · == slot) := by
    cases hAt : entries[i]? <;> simp [inSlot, hAt]
  rw [hAny, hAny, hHash]

/-- Members come in descending order. -/
theorem pairwise_members (bound : Nat) : (members size entries slot bound).Pairwise (· > ·) :=
  List.Pairwise.filter _ (List.pairwise_reverse.mpr List.pairwise_lt_range)

end Members

/-- A chain searched is the list of its entries searched. -/
theorem findFrom?_eq (entries : Array Entry) (test : Entry → Bool) (link : UInt32) :
    findFrom? entries test link = (chain entries link).find? fun i => entries[i]?.any test := by
  fun_induction chain entries link with
  | case1 => rw [findFrom?, if_pos rfl, List.find?_nil]
  | case2 link hEntry hNone => rw [findFrom?, if_neg hEntry, hNone, List.find?_nil]
  | case3 link hEntry entry hAt ih =>
      rw [findFrom?, if_neg hEntry, List.find?_cons, hAt]
      cases hTest : test entry with
      | true => simp [hTest]
      | false =>
          by_cases hEarlier : entry.earlier < link
          · simpa [hTest, hEarlier] using ih hEarlier
          · simp [hTest, hEarlier]

/-- Following the links from `link` on visits these entries: an entry is there at each step,
and the walk goes on with the one that it links to until there is none. Nothing keeps such a
walk from going round. -/
inductive Walks (entries : Array Entry) : UInt32 → List Nat → Prop where
  | stop : Walks entries noEntry []
  | step {link : UInt32} {entry : Entry} {rest : List Nat} (hLink : link ≠ noEntry)
      (hAt : entries[link.toNat]? = some entry) (h : Walks entries entry.earlier rest) :
      Walks entries link (link.toNat :: rest)

/-- A walk that leads downwards is the chain. -/
theorem Walks.chain_eq {entries : Array Entry} {link : UInt32} {visited : List Nat}
    (h : Walks entries link visited) (hDescends : visited.Pairwise (· > ·)) :
    chain entries link = visited := by
  induction h with
  | stop => rw [chain, if_pos rfl]
  | @step link entry rest hLink hAt hRest ih =>
      rw [List.pairwise_cons] at hDescends
      rw [chain, if_neg hLink, hAt]
      simp only [List.cons_inj_right]
      split
      · exact ih hDescends.2
      · rename_i hNot
        generalize entry.earlier = next at hRest hNot
        cases hRest with
        | stop => rfl
        | step => exact absurd (UInt32.lt_iff_toNat_lt.mpr (hDescends.1 _ List.mem_cons_self)) hNot

/-- The number of an entry fits thirty-two bits and is not taken for the link
that leads to no entry. -/
theorem toNat_index {i count : Nat} (hi : i < count) (hCount : count < UInt32.size) :
    i.toUInt32.toNat = i ∧ i.toUInt32 ≠ noEntry := by
  have hIndex : i.toUInt32.toNat = i := UInt32.toNat_ofNat_of_lt' (by omega)
  refine ⟨hIndex, ?_⟩
  rw [Ne, ← UInt32.toNat_inj, hIndex]
  simp only [noEntry, UInt32.reduceToNat]
  rw [UInt32.size] at hCount
  omega

section Linked

variable {size : TableSize} {heads : Array UInt32} {entries : Array Entry}

/-- From the link to the latest entry of a slot before an index the walk visits all of these. -/
theorem Linked.walks (h : Linked size heads entries) (hSize : entries.size < UInt32.size)
    (slot : UInt32) {bound : Nat} (hBound : bound ≤ entries.size) :
    Walks entries (linkTo (members size entries slot bound)) (members size entries slot bound) := by
  induction bound generalizing slot with
  | zero => exact .stop
  | succ n ih =>
      rw [members_succ]
      split
      · rename_i hSlot
        obtain ⟨entry, hAt, rfl⟩ := inSlot_iff.mp hSlot
        obtain ⟨hIndex, hLink⟩ := toNat_index (show n < entries.size by omega) hSize
        have hRest := ih (size.slot entry.hash) (by omega)
        rw [← h.earlier n entry hAt] at hRest
        have hStep := Walks.step hLink (by rwa [hIndex]) hRest
        rwa [hIndex] at hStep
      · exact ih slot (by omega)

/-- The chain from the link to the latest entry of a slot before an index is
made up of all of these. -/
theorem Linked.chain_eq (h : Linked size heads entries) (hSize : entries.size < UInt32.size)
    {slot : UInt32} {bound : Nat} (hBound : bound ≤ entries.size) :
    chain entries (linkTo (members size entries slot bound)) = members size entries slot bound :=
  (h.walks hSize slot hBound).chain_eq (pairwise_members bound)

/-- A new entry that links to the head of its slot and becomes the head. -/
theorem Linked.push (h : Linked size heads entries) (hHeads : heads.size = size.slots.toNat)
    {entry : Entry} {slot : UInt32} (hOwn : size.slot entry.hash = slot)
    (hInside : slot < size.slots) (hEarlier : entry.earlier = heads[slot.toNat]?.getD noEntry) :
    Linked size (heads.setIfInBounds slot.toNat entries.size.toUInt32) (entries.push entry) := by
  have hSame (i : Nat) (hi : i < entries.size) : (entries.push entry)[i]? = entries[i]? := by
    rw [Array.getElem?_push, if_neg hi.ne]
  have hBefore (slot : UInt32) (bound : Nat) (hBound : bound ≤ entries.size) :
      members size (entries.push entry) slot bound = members size entries slot bound :=
    members_congr fun i hi => by rw [hSame i (by omega)]
  have hLast : (entries.push entry)[entries.size]? = some entry := Array.getElem?_push_size
  constructor
  · intro other hOther
    rw [Array.size_push, members_succ, hBefore other _ le_rfl, Array.getElem?_setIfInBounds]
    by_cases hHere : slot = other
    · subst hHere
      have hPlace : slot.toNat < heads.size := by
        rw [hHeads]
        exact UInt32.lt_iff_toNat_lt.mp hInside
      rw [if_pos rfl, if_pos hPlace, if_pos (inSlot_iff.mpr ⟨entry, hLast, hOwn⟩), linkTo]
    · have hElsewhere : slot.toNat ≠ other.toNat := fun hEq => hHere (UInt32.toNat_inj.mp hEq)
      have hNot : ¬ inSlot size (entries.push entry) other entries.size = true := by
        rw [inSlot_iff]
        rintro ⟨found, hAt, hFound⟩
        rw [hLast, Option.some_inj] at hAt
        exact hHere (hOwn.symm.trans (hAt ▸ hFound))
      rw [if_neg hElsewhere, if_neg hNot, h.head other hOther]
  · intro i other hAt
    rw [Array.getElem?_push] at hAt
    split at hAt
    · rename_i hIndex
      subst hIndex
      cases hAt
      rw [hBefore _ _ le_rfl, hOwn, hEarlier, h.head slot hInside, Option.getD_some]
    · have hIndex : i < entries.size := (Array.getElem?_eq_some_iff.mp hAt).1
      rw [hBefore _ _ hIndex.le]
      exact h.earlier i other hAt

/-- An entry changed in neither hash nor link. -/
theorem Linked.set (h : Linked size heads entries) {i : Nat} {entry changed : Entry}
    (hAt : entries[i]? = some entry) (hHash : changed.hash = entry.hash)
    (hEarlier : changed.earlier = entry.earlier) :
    Linked size heads (entries.setIfInBounds i changed) := by
  have hIndex := (Array.getElem?_eq_some_iff.mp hAt).1
  have hSame (slot : UInt32) (bound : Nat) :
      members size (entries.setIfInBounds i changed) slot bound =
        members size entries slot bound := by
    refine members_congr fun j _ => ?_
    rw [Array.getElem?_setIfInBounds]
    split
    · rename_i hHere
      subst hHere
      rw [hAt, Option.map_some, Option.map_some, hHash]
    · rfl
  constructor
  · intro slot hInside
    rw [Array.size_setIfInBounds, hSame]
    exact h.head slot hInside
  · intro j other hOther
    rw [hSame]
    rw [Array.getElem?_setIfInBounds] at hOther
    split at hOther
    · rename_i hHere
      subst hHere
      rw [Option.some_inj] at hOther
      rw [← hOther, hHash, hEarlier]
      exact h.earlier i entry hAt
    · exact h.earlier j other hOther

end Linked

theorem linked_ofSize {size : TableSize} :
    Linked size (Array.replicate size.slots.toNat noEntry) #[] := by
  constructor
  · intro slot hInside
    simp [UInt32.lt_iff_toNat_lt.mp hInside, linkTo]
  · intro i entry hAt
    simp at hAt

end StationStats.Table
