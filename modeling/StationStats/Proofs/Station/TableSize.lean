import Mathlib.Tactic.Ring
import StationStats.Station.Table

/-!
The multiplication and the shift that replace a division are exact for every tabulated size and
every hash, so the slot of a hash is what remains of it after the division.
-/

namespace StationStats.TableSize

/-- The constants of a size serve it: the reciprocal times the number of slots exceeds the power of
two that the shift divides by, and by no more than the part of it that a hash cannot see. -/
structure Exact (size : TableSize) : Prop where
  slots_pos : 0 < size.slots.toNat
  shift_lt : size.shift.toNat < 32
  lower : 2 ^ (32 + size.shift.toNat) < size.reciprocal.toNat * size.slots.toNat
  upper :
    size.reciprocal.toNat * size.slots.toNat ≤ 2 ^ (32 + size.shift.toNat) + 2 ^ size.shift.toNat

theorem exact_of_mem_all {size : TableSize} (h : size ∈ all) : size.Exact := by
  have hAll : ∀ size ∈ all, 0 < size.slots.toNat ∧ size.shift.toNat < 32 ∧
      2 ^ (32 + size.shift.toNat) < size.reciprocal.toNat * size.slots.toNat ∧
      size.reciprocal.toNat * size.slots.toNat ≤
        2 ^ (32 + size.shift.toNat) + 2 ^ size.shift.toNat := by
    decide
  obtain ⟨hPos, hShift, hLower, hUpper⟩ := hAll size h
  exact ⟨hPos, hShift, hLower, hUpper⟩

/-- A quotient by a rounded reciprocal: the excess of the reciprocal, multiplied by a small enough
dividend, does not reach the next multiple. -/
theorem div_reciprocal {n divisor reciprocal power excess bound : Nat} (hDivisor : 0 < divisor)
    (hProduct : reciprocal * divisor = power + excess) (hExcess : excess * bound ≤ power)
    (hBound : n < bound) (hPower : 0 < power) : n * reciprocal / power = n / divisor := by
  have hScaled : n * reciprocal * divisor = n * power + n * excess := by
    rw [Nat.mul_assoc, hProduct, Nat.mul_add]
  have hSmall : n * excess < power := by
    rcases Nat.eq_zero_or_pos excess with hZero | hPos
    · rwa [hZero, Nat.mul_zero]
    · calc n * excess < bound * excess := Nat.mul_lt_mul_of_pos_right hBound hPos
        _ = excess * bound := Nat.mul_comm bound excess
        _ ≤ power := hExcess
  have hBelow : n + 1 ≤ divisor * (n / divisor + 1) := Nat.lt_mul_div_succ n hDivisor
  apply Nat.div_eq_of_lt_le
  · -- The whole multiples of the divisor are not lost.
    apply Nat.le_of_mul_le_mul_right (c := divisor) _ hDivisor
    calc n / divisor * power * divisor = divisor * (n / divisor) * power := by ring
      _ ≤ n * power := Nat.mul_le_mul_right power (Nat.mul_div_le n divisor)
      _ ≤ n * reciprocal * divisor := by rw [hScaled]; exact Nat.le_add_right _ _
  · -- The excess does not make up for what is missing to the next multiple.
    apply Nat.lt_of_mul_lt_mul_right (a := divisor)
    calc n * reciprocal * divisor < (n + 1) * power := by rw [hScaled, Nat.succ_mul]; omega
      _ ≤ divisor * (n / divisor + 1) * power := Nat.mul_le_mul_right power hBelow
      _ = (n / divisor + 1) * power * divisor := by ring

/-- The product of two numbers of thirty-two bits fits sixty-four. -/
theorem toNat_product (size : TableSize) (hash : UInt32) :
    (hash.toUInt64 * size.reciprocal.toUInt64).toNat = hash.toNat * size.reciprocal.toNat := by
  have hHash := hash.toNat_lt
  have hReciprocal := size.reciprocal.toNat_lt
  have hProduct : hash.toNat * size.reciprocal.toNat < 2 ^ 64 :=
    calc hash.toNat * size.reciprocal.toNat ≤ (2 ^ 32 - 1) * (2 ^ 32 - 1) :=
          Nat.mul_le_mul (by omega) (by omega)
      _ < 2 ^ 64 := by decide
  rw [UInt64.toNat_mul, UInt32.toNat_toUInt64, UInt32.toNat_toUInt64, Nat.mod_eq_of_lt hProduct]

/-- The quotient is the exact one. -/
theorem Exact.toNat_quotient {size : TableSize} (h : size.Exact) (hash : UInt32) :
    (size.quotient hash).toNat = hash.toNat / size.slots.toNat := by
  obtain ⟨hPos, hShift, hLower, hUpper⟩ := h
  have hHash := hash.toNat_lt
  have hAmount : (32 + size.shift.toUInt64).toNat % 64 = 32 + size.shift.toNat := by
    simp only [UInt64.toNat_add, UInt32.toNat_toUInt64, UInt64.reduceToNat]
    omega
  have hExcess : (size.reciprocal.toNat * size.slots.toNat - 2 ^ (32 + size.shift.toNat)) * 2 ^ 32 ≤
      2 ^ (32 + size.shift.toNat) := by
    calc _ ≤ 2 ^ size.shift.toNat * 2 ^ 32 := Nat.mul_le_mul_right _ (by omega)
      _ = 2 ^ (32 + size.shift.toNat) := by rw [Nat.pow_add, Nat.mul_comm]
  have hQuotient := div_reciprocal hPos (Nat.add_sub_of_le hLower.le).symm hExcess hHash
    (Nat.two_pow_pos (32 + size.shift.toNat))
  have hSmall : hash.toNat / size.slots.toNat < 2 ^ 32 := (Nat.div_le_self _ _).trans_lt hHash
  rw [quotient, UInt64.toNat_toUInt32, UInt64.toNat_shiftRight, hAmount, toNat_product,
    Nat.shiftRight_eq_div_pow, hQuotient, Nat.mod_eq_of_lt hSmall]

/-- As many whole multiples of the number of slots as the quotient counts do not exceed the hash. -/
theorem Exact.quotient_mul_le {size : TableSize} (h : size.Exact) (hash : UInt32) :
    (size.quotient hash).toNat * size.slots.toNat ≤ hash.toNat := by
  rw [h.toNat_quotient]
  exact Nat.div_mul_le_self hash.toNat size.slots.toNat

theorem Exact.toNat_multiple {size : TableSize} (h : size.Exact) (hash : UInt32) :
    (size.quotient hash * size.slots).toNat = (size.quotient hash).toNat * size.slots.toNat := by
  rw [UInt32.toNat_mul, Nat.mod_eq_of_lt ((h.quotient_mul_le hash).trans_lt hash.toNat_lt)]

/-- The slot of a hash is its remainder by the number of slots. -/
theorem Exact.toNat_slot {size : TableSize} (h : size.Exact) (hash : UInt32) :
    (size.slot hash).toNat = hash.toNat % size.slots.toNat := by
  have hMultiple := h.toNat_multiple hash
  have hLe : size.quotient hash * size.slots ≤ hash := by
    rw [UInt32.le_iff_toNat_le, hMultiple]
    exact h.quotient_mul_le hash
  have hSplit := Nat.div_add_mod' hash.toNat size.slots.toNat
  rw [slot, UInt32.toNat_sub_of_le _ _ hLe, hMultiple, h.toNat_quotient]
  omega

theorem Exact.slot_lt {size : TableSize} (h : size.Exact) (hash : UInt32) :
    (size.slot hash).toNat < size.slots.toNat := by
  rw [h.toNat_slot]
  exact Nat.mod_lt _ h.slots_pos

theorem slot_lt_slots {size : TableSize} (h : size ∈ all) (hash : UInt32) :
    size.slot hash < size.slots :=
  UInt32.lt_iff_toNat_lt.mpr ((exact_of_mem_all h).slot_lt hash)

/-! ### The size for a number of stations -/

theorem pairwise_all : all.Pairwise (·.slots.toNat < ·.slots.toNat) := by decide

/-- Up to the largest size, the size for a number of stations is the smallest tabulated one
that is large enough. -/
theorem exists_least {wanted : Nat} (h : wanted ≤ 733045421) :
    ∃ size ∈ all, atLeast wanted = .ok size ∧ wanted ≤ size.slots.toNat ∧
      ∀ other ∈ all, wanted ≤ other.slots.toNat → size.slots.toNat ≤ other.slots.toNat := by
  have hSome : (all.find? (wanted ≤ ·.slots.toNat)).isSome :=
    List.find?_isSome.mpr ⟨⟨733045421, 0x5dbec447, 28⟩, by decide, by simpa using h⟩
  obtain ⟨size, hFound⟩ := Option.isSome_iff_exists.mp hSome
  obtain ⟨hEnough, before, behind, hAll, hBefore⟩ := List.find?_eq_some_iff_append.mp hFound
  have hLeast : atLeast wanted = .ok size := by rw [atLeast, hFound]
  refine ⟨size, List.mem_of_find?_eq_some hFound, hLeast, of_decide_eq_true hEnough, ?_⟩
  intro other hOther hWanted
  have hAscending := pairwise_all
  rw [hAll] at hOther hAscending
  rcases List.mem_append.mp hOther with hEarlier | hHere
  · have hSmall := hBefore other hEarlier
    rw [decide_eq_true hWanted] at hSmall
    cases hSmall
  · rcases List.mem_cons.mp hHere with rfl | hLater
    · exact le_rfl
    · exact (List.rel_of_pairwise_cons (List.pairwise_append.mp hAscending).2.1 hLater).le

/-- Up to the last size but two there is a tabulated size that is large enough and no
larger than that one. -/
theorem exists_atLeast {wanted : Nat} (h : wanted ≤ 142069021) :
    ∃ size ∈ all, atLeast wanted = .ok size ∧ wanted ≤ size.slots.toNat ∧
      size.slots.toNat ≤ 142069021 := by
  obtain ⟨size, hSize, hLeast, hEnough, hSmallest⟩ := exists_least (h.trans (by decide))
  have hBound := hSmallest ⟨142069021, 0xf1da390b, 27⟩ (by decide) h
  exact ⟨size, hSize, hLeast, hEnough, hBound⟩

/-- The slot of any hash in a table for a number of stations is what remains of the hash after
the division by the smallest tabulated size that is large enough. The quotient on the way to it
is the exact one, none of the products outgrows its field, nothing is subtracted from less, and
the table has the slot. -/
theorem slot_eq_mod_least {wanted : Nat} (h : wanted ≤ 733045421) (hash : UInt32) :
    ∃ size ∈ all, atLeast wanted = .ok size ∧
      (wanted ≤ size.slots.toNat ∧ ∀ other ∈ all, wanted ≤ other.slots.toNat →
        size.slots.toNat ≤ other.slots.toNat) ∧
      (hash.toUInt64 * size.reciprocal.toUInt64).toNat = hash.toNat * size.reciprocal.toNat ∧
      (size.quotient hash).toNat = hash.toNat / size.slots.toNat ∧
      (size.quotient hash * size.slots).toNat = (size.quotient hash).toNat * size.slots.toNat ∧
      (size.quotient hash).toNat * size.slots.toNat ≤ hash.toNat ∧
      (size.slot hash).toNat = hash.toNat % size.slots.toNat ∧
      ∀ {keyHash : KeyHash} (t : Table keyHash), Table.withCapacity wanted = .ok t →
        t.size = size ∧ (t.size.slot hash).toNat < t.capacity ∧
          (t.size.slot hash).toNat < t.heads.size := by
  obtain ⟨size, hSize, hLeast, hEnough, hSmallest⟩ := exists_least h
  have hExact := exact_of_mem_all hSize
  refine ⟨size, hSize, hLeast, ⟨hEnough, hSmallest⟩, size.toNat_product hash,
    hExact.toNat_quotient hash, hExact.toNat_multiple hash, hExact.quotient_mul_le hash,
    hExact.toNat_slot hash, ?_⟩
  intro keyHash t hStart
  simp only [Table.withCapacity, hLeast] at hStart
  cases hStart
  have hHeads : (Table.ofSize size : Table keyHash).heads.size = size.slots.toNat :=
    Array.size_replicate
  rw [hHeads]
  exact ⟨rfl, hExact.slot_lt hash, hExact.slot_lt hash⟩

/-- The largest hash in a table that is too large for the last size but two. -/
theorem slot_eq_mod_least_of_largest_hash :
    ∃ size ∈ all, atLeast 142069022 = .ok size ∧
      (size.slot 0xFFFFFFFF).toNat = 4294967295 % 294594427 := by
  obtain ⟨size, hSize, hLeast, -, -, -, -, -, hSlot, -⟩ :=
    slot_eq_mod_least (show 142069022 ≤ 733045421 by decide) 0xFFFFFFFF
  obtain rfl : (⟨294594427, 0x74a2507d, 27⟩ : TableSize) = size := Except.ok.inj hLeast
  exact ⟨_, hSize, hLeast, hSlot⟩

end StationStats.TableSize
