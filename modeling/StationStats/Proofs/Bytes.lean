import StationStats.Proofs.Row.Format

/-!
The operations on byte strings, said about the lists of their bytes: where the first and the
last line feed stand, which of the bytes are whole rows, and what a buffer holds after it has
been overwritten in part.
-/

namespace StationStats.Bytes

theorem toList_extract (bytes : Bytes) (start stop : Nat) :
    (bytes.extract start stop).toList = (bytes.toList.drop start).take (stop - start) := by
  rw [Array.toList_extract, List.extract_eq_take_drop]

/-- The part of a buffer up to the end of what was written: what stood there
before, and the new bytes. -/
theorem take_overwrite {buffer : Bytes} {start : Nat} {new : List UInt8}
    (h : start + new.length ≤ buffer.size) :
    (overwrite buffer start new).toList.take (start + new.length) =
      buffer.toList.take start ++ new := by
  induction new generalizing buffer start with
  | nil => simp [overwrite]
  | cons b rest ih =>
      rw [List.length_cons] at h
      have hRest : start + 1 + rest.length ≤ (buffer.setIfInBounds start b).size := by
        rw [Array.size_setIfInBounds]
        omega
      have hStep := ih hRest
      have hPlace : (buffer.setIfInBounds start b).toList.take (start + 1) =
          buffer.toList.take start ++ [b] := by
        rw [Array.toList_setIfInBounds, List.take_succ_eq_append_getElem (by simp; omega),
          List.getElem_set_self, List.take_set_of_le (Nat.le_refl start)]
      rw [overwrite, List.length_cons, Nat.add_comm rest.length, ← Nat.add_assoc, hStep, hPlace,
        List.append_assoc, List.singleton_append]

/-- Bytes behind the part that is overwritten stay what they were. -/
theorem getElem?_overwrite_of_le {buffer : Bytes} {start i : Nat} {new : List UInt8}
    (h : start + new.length ≤ i) :
    (overwrite buffer start new)[i]? = buffer[i]? := by
  induction new generalizing buffer start with
  | nil => rfl
  | cons b rest ih =>
      rw [List.length_cons] at h
      rw [overwrite, ih (by omega), Array.getElem?_setIfInBounds_ne (by omega)]

/-- The last line feed among the first bytes, and no other behind it. -/
theorem lastLineFeed?_eq_some {bytes : Bytes} {n i : Nat} (h : bytes.lastLineFeed? n = some i) :
    i < n ∧ bytes.toList[i]? = some lineFeed ∧ ∀ j, i < j → j < n →
      bytes.toList[j]? ≠ some lineFeed := by
  induction n with
  | zero => simp [lastLineFeed?] at h
  | succ n ih =>
      rw [lastLineFeed?] at h
      split at h
      · rename_i hHere
        cases h
        exact ⟨Nat.lt_succ_self _, by rwa [Array.getElem?_toList], fun j _ _ => by omega⟩
      · rename_i hNot
        obtain ⟨hBefore, hAt, hBehind⟩ := ih h
        refine ⟨Nat.lt_succ_of_lt hBefore, hAt, fun j hi hj => ?_⟩
        rcases Nat.lt_or_eq_of_le (Nat.le_of_lt_succ hj) with hLt | rfl
        · exact hBehind j hi hLt
        · rwa [Array.getElem?_toList]

theorem lastLineFeed?_eq_none {bytes : Bytes} {n : Nat} (h : bytes.lastLineFeed? n = none) :
    ∀ j < n, bytes.toList[j]? ≠ some lineFeed := by
  induction n with
  | zero => simp
  | succ n ih =>
      rw [lastLineFeed?] at h
      split at h
      · cases h
      · rename_i hNot
        intro j hj
        rcases Nat.lt_or_eq_of_le (Nat.le_of_lt_succ hj) with hLt | rfl
        · exact ih h j hLt
        · rwa [Array.getElem?_toList]

/-- The whole rows end with a line feed. -/
theorem terminated_take_wholeRows (bytes : Bytes) (n : Nat) :
    Terminated (bytes.toList.take (bytes.wholeRows n)) := by
  rw [wholeRows]
  cases hLast : bytes.lastLineFeed? n with
  | none => simp [Terminated]
  | some i =>
      obtain ⟨-, hAt, -⟩ := lastLineFeed?_eq_some hLast
      obtain ⟨hIndex, hByte⟩ := List.getElem?_eq_some_iff.mp hAt
      intro b hb
      simp only at hb
      rw [List.take_succ_eq_append_getElem hIndex, List.getLast?_concat, Option.mem_some_iff] at hb
      rw [← hb, hByte]

/-- The partial row behind the whole rows has no line feed. -/
theorem lineFeed_not_mem_drop_wholeRows (bytes : Bytes) (n : Nat) :
    lineFeed ∉ (bytes.toList.take n).drop (bytes.wholeRows n) := by
  have hNone : ∀ j, bytes.wholeRows n ≤ j → j < n → bytes.toList[j]? ≠ some lineFeed := by
    rw [wholeRows]
    cases hLast : bytes.lastLineFeed? n with
    | none => exact fun j _ hj => lastLineFeed?_eq_none hLast j hj
    | some i => exact fun j hi hj => (lastLineFeed?_eq_some hLast).2.2 j hi hj
  intro hMem
  obtain ⟨j, hAt⟩ := List.mem_iff_getElem?.mp hMem
  rw [List.getElem?_drop, List.getElem?_take] at hAt
  split at hAt
  · rename_i hj
    exact hNone _ (Nat.le_add_right _ _) hj hAt
  · cases hAt

end StationStats.Bytes
