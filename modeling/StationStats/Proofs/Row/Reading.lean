import StationStats.Proofs.Row.Measurement

/-!
The reading that some bytes begin with. Any eight bytes or more are enough to find it, nothing
behind it has an influence on it, and the words that it is found with are wide enough: numbers
without bounds give the same.
-/

namespace StationStats.Measurement

open Word

/-! ### Width of the words -/

/-- The magnitude in tenths as `magnitude` has it, calculated with numbers that never wrap. -/
def unboundedMagnitude (w point : Nat) (negative : Bool) : Nat :=
  let unsigned := if negative then w &&& 0xFFFFFFFFFFFFFF00 else w
  let placed := (unsigned <<< (28 - point)) &&& 0x0F000F0F00
  placed * (100 * 0x1000000 + 10 * 0x10000 + 1) / UInt32.size % 1024

/-- Bits that wrap are bits that the masks drop. -/
theorem toNat_magnitude_eq (w : UInt64) {point : Nat} (h : point ≤ 28) (negative : Bool) :
    (magnitude w point negative).toNat = unboundedMagnitude w.toNat point negative := by
  have hShift : (28 - point.toUInt64).toNat % 64 = 28 - point := by
    have hPoint : point.toUInt64.toNat = point :=
      UInt64.toNat_ofNat_of_lt' (by simp only [UInt64.size]; omega)
    have hLe : point.toUInt64 ≤ 28 := by
      rw [UInt64.le_iff_toNat_le, hPoint]
      exact h
    rw [UInt64.toNat_sub_of_le _ _ hLe, hPoint]
    exact Nat.mod_eq_of_lt (by simp only [UInt64.reduceToNat]; omega)
  have hClear : (~~~0xFF : UInt64).toNat = 0xFFFFFFFFFFFFFF00 := by decide
  have hGather : gather.toNat = 100 * 0x1000000 + 10 * 0x10000 + 1 := by decide
  have hPlaces (n : Nat) : n % 2 ^ 64 &&& 0x0F000F0F00 = n &&& 0x0F000F0F00 := by
    rw [← Nat.and_two_pow_sub_one_eq_mod, Nat.and_assoc]
    rfl
  have hWrap (n : Nat) : n % 2 ^ 64 / 2 ^ 32 % 2 ^ 10 = n / 2 ^ 32 % 2 ^ 10 := by omega
  have hUnsigned : (if negative then w &&& ~~~0xFF else w).toNat =
      if negative then w.toNat &&& 0xFFFFFFFFFFFFFF00 else w.toNat := by
    cases negative with
    | false => rfl
    | true =>
        rw [if_pos rfl, if_pos rfl, UInt64.toNat_and, hClear]
  rw [magnitude, unboundedMagnitude]
  simp only [UInt64.toNat_and, UInt64.toNat_shiftRight, UInt64.toNat_mul, UInt64.toNat_shiftLeft,
    hShift, hGather, hUnsigned, hPlaces, UInt64.reduceToNat, Nat.reduceMod,
    Nat.shiftRight_eq_div_pow, UInt32.size]
  rw [show (1023 : Nat) = 2 ^ 10 - 1 from rfl, Nat.and_two_pow_sub_one_eq_mod, hWrap]
  rfl

/-- No step in reading a word loses a bit that counts: the sum in the test for digits does not wrap,
the point of a word that is read is not so far up that a shift would be by a negative number, and
shifts and product give what they give for numbers without bounds. -/
structure Lossless (w : UInt64) : Prop where
  sum_lt : (w &&& 0x0F0F0F0F0F0F0F0F).toNat + (0x0606060606060606 : UInt64).toNat < UInt64.size
  pointBit_le : ∀ m, ofWord? w = some m → pointBit w ≤ 28
  natAbs_eq : ∀ m, ofWord? w = some m →
    m.tenths.natAbs = unboundedMagnitude w.toNat (pointBit w) (signed w)

theorem pointBit_le_of_ofWord? {bytes : List UInt8} (h : bytes.length = 8) {m : Measurement}
    (hRead : ofWord? (ofBytes bytes) = some m) : pointBit (ofBytes bytes) ≤ 28 := by
  obtain ⟨a, b, c, d, rest, rfl⟩ : ∃ a b c d rest, bytes = a :: b :: c :: d :: rest := by
    rcases bytes with _ | ⟨a, _ | ⟨b, _ | ⟨c, _ | ⟨d, rest⟩⟩⟩⟩ <;> simp at h
    exact ⟨a, b, c, d, rest, rfl⟩
  have hWell : pointBit (ofBytes (a :: b :: c :: d :: rest)) / 8 ≤ 3 := by
    simp only [ofWord?] at hRead
    exact (Option.ite_none_right_eq_some.mp hRead).1.1
  rw [pointBit_ofBytes] at hWell ⊢
  split_ifs at hWell ⊢ <;> omega

theorem natAbs_tenths {w : UInt64} {m : Measurement} (hRead : ofWord? w = some m) :
    m.tenths.natAbs = (magnitude w (pointBit w) (signed w)).toNat := by
  simp only [ofWord?] at hRead
  obtain ⟨-, hValue⟩ := Option.ite_none_right_eq_some.mp hRead
  rw [← Option.some_inj.mp hValue]
  split
  · rw [Int.natAbs_neg, Int.natAbs_natCast]
  · rw [Int.natAbs_natCast]

theorem lossless_ofBytes {bytes : List UInt8} (h : bytes.length = 8) :
    Lossless (ofBytes bytes) where
  sum_lt := by
    have hLow :
        (ofBytes bytes &&& 0x0F0F0F0F0F0F0F0F).toNat ≤ (0x0F0F0F0F0F0F0F0F : UInt64).toNat := by
      rw [UInt64.toNat_and]
      exact Nat.and_le_right
    refine (Nat.add_le_add_right hLow _).trans_lt ?_
    decide
  pointBit_le _ hRead := pointBit_le_of_ofWord? h hRead
  natAbs_eq _ hRead := by
    rw [natAbs_tenths hRead, toNat_magnitude_eq _ (pointBit_le_of_ofWord? h hRead)]

/-! ### Bytes that begin with a reading -/

/-- A reading is so short that the first eight bytes show whether there is one. -/
theorem prefix_take_iff {text bytes : List UInt8} {tenths : Int} (h : IsReading text tenths) :
    text <+: bytes.take 8 ↔ text <+: bytes := by
  have hShort := h.length
  rw [List.prefix_take_iff]
  exact and_iff_left (by omega)

/-- A word that is taken from the start of some bytes is read as what these begin with. -/
theorem ofWord?_take_eq_some_iff {bytes : List UInt8} (h : 8 ≤ bytes.length) (m : Measurement) :
    ofWord? (ofBytes (bytes.take 8)) = some m ↔
      ∃ text, text <+: bytes ∧ IsReading text m.tenths ∧ m.length = text.length + 1 := by
  rw [ofWord?_eq_some_iff (List.length_take_of_le h)]
  constructor
  · rintro ⟨text, rest, hText, hReading, hLength⟩
    exact ⟨text, (prefix_take_iff hReading).mp ⟨rest, hText.symm⟩, hReading, hLength⟩
  · rintro ⟨text, hText, hReading, hLength⟩
    obtain ⟨rest, hRest⟩ := (prefix_take_iff hReading).mpr hText
    exact ⟨text, rest, hRest.symm, hReading, hLength⟩

/-- Bytes that begin with the text of a reading are read as that, whatever stands behind it. -/
theorem ofWord?_take_of_begins {text bytes : List UInt8} {tenths : Int} (h : 8 ≤ bytes.length)
    (hReading : IsReading text tenths) (hText : text <+: bytes) :
    ofWord? (ofBytes (bytes.take 8)) = some { length := text.length + 1, tenths } :=
  (ofWord?_take_eq_some_iff h _).mpr ⟨text, hText, hReading, rfl⟩

theorem load?_start {bytes : Bytes} (h : 8 ≤ bytes.size) :
    load? bytes 0 = some (ofBytes (bytes.toList.take 8)) := by
  rw [load?_eq, if_pos (by omega), List.drop_zero]

/-- Eight bytes or more are read exactly if they begin with a reading, as the signed number of
tenths that it stands for and with its length and one more; otherwise nothing is read. Other
bytes that begin with the same text are read as the same, and the words that all this is done
with lose no bit that counts. -/
theorem exists_word_ofWord?_iff {bytes : Bytes} (h : 8 ≤ bytes.size) :
    ∃ word, load? bytes 0 = some word ∧ Lossless word ∧
      (∀ m, ofWord? word = some m ↔
        ∃ text, text <+: bytes.toList ∧ IsReading text m.tenths ∧ m.length = text.length + 1) ∧
      (∀ m, ofWord? word = some m → -999 ≤ m.tenths ∧ m.tenths ≤ 999) ∧
      (ofWord? word = none ↔ ∀ text tenths, IsReading text tenths → ¬ text <+: bytes.toList) ∧
      ∀ (text : List UInt8) (tenths : Int) (other : Bytes), IsReading text tenths →
        text <+: bytes.toList →
        8 ≤ other.size → text <+: other.toList → (load? other 0).bind ofWord? = ofWord? word := by
  have hRead := ofWord?_take_eq_some_iff (show 8 ≤ bytes.toList.length from h)
  have hEight : (bytes.toList.take 8).length = 8 := List.length_take_of_le h
  refine ⟨ofBytes (bytes.toList.take 8), load?_start h, lossless_ofBytes hEight, hRead, ?_, ?_, ?_⟩
  · intro m hSome
    obtain ⟨text, -, hReading, -⟩ := (hRead m).mp hSome
    have hRange := hReading.natAbs_le
    omega
  · constructor
    · intro hNone text tenths hReading hText
      cases hNone.symm.trans (ofWord?_take_of_begins h hReading hText)
    · intro hNone
      rw [Option.eq_none_iff_forall_ne_some]
      intro m hSome
      obtain ⟨text, hText, hReading, -⟩ := (hRead m).mp hSome
      exact hNone text m.tenths hReading hText
  · intro text tenths other hReading hText hOther hSame
    rw [load?_start hOther, Option.bind_some, ofWord?_take_of_begins hOther hReading hSame,
      ofWord?_take_of_begins h hReading hText]

/-- A minus sign in front of zero, with a digit, a point and a line feed behind the reading. -/
theorem exists_word_minus_zero :
    ∃ word, load? #[45, 48, 46, 48, 55, 46, 51, 10] 0 = some word ∧
      ofWord? word = some { length := 5, tenths := 0 } := by
  obtain ⟨word, hWord, -, hRead, -⟩ :=
    exists_word_ofWord?_iff (show 8 ≤ (#[45, 48, 46, 48, 55, 46, 51, 10] : Bytes).size by decide)
  have hReading : IsReading [minus, 48, point, 48] 0 := .signed (.short (by decide) (by decide))
  exact ⟨word, hWord, (hRead _).mpr ⟨_, ⟨[55, 46, 51, 10], rfl⟩, hReading, rfl⟩⟩

end StationStats.Measurement
