import StationStats.Proofs.Word.Packing

/-!
The search for a byte with whole-word arithmetic finds the first one. The arithmetic may set bits
above those of the first match, never below, so the position of the lowest set bit is exact.
-/

namespace StationStats

/-- The first match of a byte, through the bytes at and before it. -/
theorem findIdx?_beq_eq_some_iff {text : List UInt8} {b : UInt8} {i : Nat} :
    text.findIdx? (· == b) = some i ↔ text[i]? = some b ∧ ∀ j < i, text[j]? ≠ some b := by
  rw [List.findIdx?_eq_some_iff_getElem]
  constructor
  · rintro ⟨hIndex, hMatch, hBefore⟩
    refine ⟨by rw [List.getElem?_eq_getElem hIndex, beq_iff_eq.mp hMatch], fun j hj => ?_⟩
    rw [List.getElem?_eq_getElem (hj.trans hIndex), Ne, Option.some_inj]
    simpa using hBefore j hj
  · rintro ⟨hMatch, hBefore⟩
    obtain ⟨hIndex, hAt⟩ := List.getElem?_eq_some_iff.mp hMatch
    refine ⟨hIndex, beq_iff_eq.mpr hAt, fun j hj => ?_⟩
    have hOther := hBefore j hj
    rw [List.getElem?_eq_getElem (hj.trans hIndex), Ne, Option.some_inj] at hOther
    simpa using hOther

theorem findIdx?_beq_eq_none_iff {text : List UInt8} {b : UInt8} :
    text.findIdx? (· == b) = none ↔ b ∉ text := by
  rw [List.findIdx?_eq_none_iff]
  constructor
  · intro h hb
    simpa using h b hb
  · rintro h x hx
    rw [beq_eq_false_iff_ne]
    rintro rfl
    exact h hx

/-- The first match of the byte behind a text that does not have it. -/
theorem findIdx?_beq_append {text : List UInt8} {b : UInt8} (h : b ∉ text) (rest : List UInt8) :
    (text ++ b :: rest).findIdx? (· == b) = some text.length := by
  rw [List.findIdx?_append, findIdx?_beq_eq_none_iff.mpr h]
  simp [List.findIdx?_cons]

/-- The first match splits the text: the byte is not in what stands before it. -/
theorem findIdx?_beq_eq_some_iff_append {text : List UInt8} {b : UInt8} {i : Nat} :
    text.findIdx? (· == b) = some i ↔
      ∃ before behind, text = before ++ b :: behind ∧ b ∉ before ∧ before.length = i := by
  constructor
  · intro hFirst
    obtain ⟨hMatch, hBefore⟩ := findIdx?_beq_eq_some_iff.mp hFirst
    obtain ⟨hIndex, hAt⟩ := List.getElem?_eq_some_iff.mp hMatch
    refine ⟨text.take i, text.drop (i + 1), ?_, fun hMem => ?_, List.length_take_of_le hIndex.le⟩
    · rw [← hAt, ← List.drop_eq_getElem_cons hIndex, List.take_append_drop]
    · obtain ⟨j, hj, hEarlier⟩ := List.mem_take_iff_getElem.mp hMem
      have hInside := hj.trans_le (Nat.min_le_left _ _)
      exact hBefore j hInside (List.getElem?_eq_some_iff.mpr ⟨hInside.trans hIndex, hEarlier⟩)
  · rintro ⟨before, behind, rfl, hBefore, rfl⟩
    exact findIdx?_beq_append hBefore behind

namespace Word

/-- The count of clear bits is the index of the lowest set one. -/
theorem clearBits_eq {n i : Nat} {w : UInt64} (hIndex : i < n)
    (hSet : w.toBitVec.getLsbD i = true) (hClear : ∀ j < i, w.toBitVec.getLsbD j = false) :
    clearBits n w = i := by
  induction n generalizing i w with
  | zero => omega
  | succ n ih =>
      have hOdd : w &&& 1 = 1 ↔ w.toBitVec.getLsbD 0 = true := by
        rw [← UInt64.toBitVec_inj, UInt64.toBitVec_and]
        rw [show (1 : UInt64).toBitVec = 1#64 from rfl, BitVec.and_one_eq_setWidth_ofBool_getLsbD]
        cases w.toBitVec.getLsbD 0 <;> decide
      cases i with
      | zero => rw [clearBits, if_pos (hOdd.mpr hSet)]
      | succ i =>
          have hEven : ¬ w &&& 1 = 1 := by
            rw [hOdd, hClear 0 (Nat.succ_pos i)]
            exact Bool.false_ne_true
          have hShift (j : Nat) : (w >>> 1).toBitVec.getLsbD j = w.toBitVec.getLsbD (j + 1) := by
            simp [UInt64.toBitVec_shiftRight, Nat.add_comm]
          rw [clearBits, if_neg hEven, ih (Nat.lt_of_succ_lt_succ hIndex)]
          · rw [hShift]; exact hSet
          · intro j hj
            rw [hShift]
            exact hClear (j + 1) (Nat.succ_lt_succ hj)

/-- The search mask for zero bytes. -/
def zeroHits (bytes : List UInt8) : UInt64 :=
  (ofBytes bytes - ofBytes (List.replicate bytes.length 1)) &&& ~~~ofBytes bytes &&&
    ofBytes (List.replicate bytes.length 0x80)

/-- A byte that is not zero sets no bit of its own and borrows nothing from those above. -/
theorem zeroHits_cons_of_ne {b : UInt8} (hNonzero : b ≠ 0) (rest : List UInt8) :
    zeroHits (b :: rest) = cons 0 (zeroHits rest) := by
  have hOne : (1 : UInt8) ≤ b :=
    forall_byte (P := fun b => b ≠ 0 → 1 ≤ b) (by decide +kernel) b hNonzero
  have hSilent : (b - 1) &&& ~~~b &&& 0x80 = 0 :=
    forall_byte (P := fun b => b ≠ 0 → (b - 1) &&& ~~~b &&& 0x80 = 0) (by decide +kernel) b hNonzero
  simp only [zeroHits, List.length_cons, List.replicate_succ, ofBytes_cons, cons_sub hOne, cons_not,
    cons_and, hSilent]

/-- A zero byte sets its top bit and no other bit of its own. -/
theorem toUInt8_zeroHits_cons_zero (rest : List UInt8) : (zeroHits (0 :: rest)).toUInt8 = 0x80 := by
  simp only [zeroHits, List.length_cons, List.replicate_succ, ofBytes_cons, UInt64.toUInt8_and,
    UInt64.toUInt8_sub, UInt64.toUInt8_not, toUInt8_cons]
  decide

theorem zeroHits_eq_zero {bytes : List UInt8} (h : ∀ b ∈ bytes, b ≠ 0) : zeroHits bytes = 0 := by
  induction bytes with
  | nil => rfl
  | cons b rest ih =>
      rw [zeroHits_cons_of_ne (h b List.mem_cons_self),
        ih fun c hc => h c (List.mem_cons_of_mem b hc)]
      rfl

/-- The lowest bit of the mask is the top bit of the first zero byte. -/
theorem lowest_zeroHits {bytes : List UInt8} {i : Nat} (hLength : bytes.length ≤ 8)
    (hFirst : bytes.findIdx? (· == 0) = some i) :
    (zeroHits bytes).toBitVec.getLsbD (8 * i + 7) = true ∧
      ∀ j < 8 * i + 7, (zeroHits bytes).toBitVec.getLsbD j = false := by
  induction bytes generalizing i with
  | nil => simp at hFirst
  | cons b rest ih =>
      simp only [List.length_cons] at hLength
      by_cases hZero : b = 0
      · subst hZero
        have hIndex : 0 = i := by simpa [List.findIdx?_cons] using hFirst
        have hByte (j : Nat) (hj : j < 8) : (zeroHits (0 :: rest)).toBitVec.getLsbD j =
            (0x80 : UInt8).toBitVec.getLsbD j := by
          rw [← toUInt8_zeroHits_cons_zero rest]
          simp [hj]
        subst hIndex
        refine ⟨by rw [hByte 7 (by omega)]; decide, fun j hj => ?_⟩
        rw [hByte j (by omega)]
        interval_cases j <;> decide
      · rw [List.findIdx?_cons, if_neg (by simpa using hZero), Option.map_eq_some_iff] at hFirst
        obtain ⟨k, hRest, rfl⟩ := hFirst
        obtain ⟨hSet, hClear⟩ := ih (by omega) hRest
        have hInRest : k < rest.length := (List.findIdx?_eq_some_iff_getElem.mp hRest).1
        rw [zeroHits_cons_of_ne hZero]
        constructor
        · rw [getLsbD_cons, if_neg (by omega), show 8 * (k + 1) + 7 - 8 = 8 * k + 7 by omega, hSet]
          simp
          omega
        · intro j hj
          rw [getLsbD_cons]
          split
          · simp
          · rw [hClear (j - 8) (by omega), Bool.and_false]

theorem trailingZeros_zeroHits {bytes : List UInt8} {i : Nat} (hLength : bytes.length ≤ 8)
    (hFirst : bytes.findIdx? (· == 0) = some i) : trailingZeros (zeroHits bytes) / 8 = i := by
  have hIndex : i < bytes.length := (List.findIdx?_eq_some_iff_getElem.mp hFirst).1
  obtain ⟨hSet, hClear⟩ := lowest_zeroHits hLength hFirst
  rw [trailingZeros, clearBits_eq (by omega) hSet hClear]
  omega

theorem zeroHits_ne_zero {bytes : List UInt8} {i : Nat} (hLength : bytes.length ≤ 8)
    (hFirst : bytes.findIdx? (· == 0) = some i) : zeroHits bytes ≠ 0 := by
  intro hZero
  have hSet := (lowest_zeroHits hLength hFirst).1
  rw [hZero] at hSet
  simp at hSet

/-- One byte in every place of a word. -/
theorem ones_mul (b : UInt8) : ones * b.toUInt64 = ofBytes (List.replicate 8 b) := by
  have hByte := b.toNat_lt
  apply UInt64.toNat_inj.mp
  rw [toNat_ofBytes (by simp), UInt64.toNat_mul, UInt8.toNat_toUInt64]
  simp only [ones, UInt64.reduceToNat, List.replicate, value]
  omega

theorem ofBytes_xor_replicate (bytes : List UInt8) (b : UInt8) :
    ofBytes bytes ^^^ ofBytes (List.replicate bytes.length b) = ofBytes (bytes.map (· ^^^ b)) := by
  induction bytes with
  | nil => simp
  | cons a rest ih => simp [List.replicate_succ, cons_xor, ih]

/-- A byte is searched by making its matches zero. -/
theorem hits_ofBytes {bytes : List UInt8} (hLength : bytes.length = 8) (b : UInt8) :
    hits (ofBytes bytes) b = zeroHits (bytes.map (· ^^^ b)) := by
  have hOnes : ones = ofBytes (List.replicate 8 1) := by decide
  have hHigh : highBits = ofBytes (List.replicate 8 0x80) := by decide
  rw [hits, ones_mul, ← hLength, ofBytes_xor_replicate, hOnes, hHigh, zeroHits, List.length_map,
    hLength]

theorem xor_beq_zero (a b : UInt8) : ((a ^^^ b) == 0) = (a == b) := by
  rw [Bool.eq_iff_iff, beq_iff_eq, beq_iff_eq, UInt8.xor_eq_zero_iff]

/-- One word of a search: the index of the first match in it, or the search goes on behind it. -/
theorem find?_ofBytes_cons {bytes : List UInt8} (hLength : bytes.length = 8) (b : UInt8)
    (words : List UInt64) :
    find? b (ofBytes bytes :: words) =
      (bytes.findIdx? (· == b)).or ((find? b words).map (· + 8)) := by
  have hLe : (bytes.map (· ^^^ b)).length ≤ 8 := by simp [hLength]
  have hSame : (bytes.map (· ^^^ b)).findIdx? (· == 0) = bytes.findIdx? (· == b) := by
    rw [List.findIdx?_map]
    congr 1
    funext a
    exact xor_beq_zero a b
  rw [find?, hits_ofBytes hLength]
  cases hFirst : bytes.findIdx? (· == b) with
  | none =>
      rw [← hSame, List.findIdx?_eq_none_iff] at hFirst
      have hNone : zeroHits (bytes.map (· ^^^ b)) = 0 :=
        zeroHits_eq_zero fun c hc => by simpa using hFirst c hc
      simp [hNone]
  | some i =>
      rw [← hSame] at hFirst
      simp [zeroHits_ne_zero hLe hFirst, trailingZeros_zeroHits hLe hFirst]

end Word

end StationStats
