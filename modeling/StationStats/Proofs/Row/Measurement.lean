import StationStats.Proofs.Row.Format
import StationStats.Proofs.Word.Packing
import StationStats.Row.Measurement

/-!
A reading is recognised in a word exactly if the bytes of the word begin with one, and then it is
read with its length and value. The masks test bytes one by one, so each test is decided over all
values of a byte; what the masks leave is one of four shapes, and the product adds up its digits.
-/

namespace StationStats.Measurement

open Word

/-! ### Tests on all bytes at once -/

theorem ofBytes_and_replicate (bytes : List UInt8) (mask : UInt8) :
    ofBytes bytes &&& ofBytes (List.replicate bytes.length mask) =
      ofBytes (bytes.map (· &&& mask)) := by
  induction bytes with
  | nil => simp
  | cons b rest ih => simp [List.replicate_succ, cons_and, ih]

theorem ofBytes_and_ofBytes {bytes masks : List UInt8} (h : bytes.length = masks.length) :
    ofBytes bytes &&& ofBytes masks = ofBytes ((bytes.zip masks).map fun p => p.1 &&& p.2) := by
  induction bytes generalizing masks with
  | nil => simp
  | cons b rest ih =>
      cases masks with
      | nil => simp at h
      | cons m masks =>
          have hRest : rest.length = masks.length := by simpa using h
          simp [cons_and, ih hRest]

/-- A number added to every byte stays inside each if none of them carries. -/
theorem ofBytes_add_replicate {bytes : List UInt8} {n : UInt8}
    (h : ∀ b ∈ bytes, b.toNat + n.toNat < 256) :
    ofBytes bytes + ofBytes (List.replicate bytes.length n) = ofBytes (bytes.map (· + n)) := by
  induction bytes with
  | nil => simp
  | cons b rest ih =>
      have hRest := ih fun c hc => h c (List.mem_cons_of_mem b hc)
      have hByte := h b List.mem_cons_self
      simp [List.replicate_succ, cons_add hByte, hRest]

/-- The high halves of the covered bytes are three. -/
def HighHalves (w places : UInt64) : Prop :=
  w &&& places &&& 0xF0F0F0F0F0F0F0F0 = 0x3030303030303030 &&& places

/-- Six more than the low halves of the covered bytes does not carry. -/
def LowHalves (w places : UInt64) : Prop :=
  ((w &&& 0x0F0F0F0F0F0F0F0F) + 0x0606060606060606) &&& 0x1010101010101010 &&& places = 0

theorem highHalves_iff {bytes masks : List UInt8} (hBytes : bytes.length = 8)
    (hMasks : masks.length = 8) :
    HighHalves (ofBytes bytes) (ofBytes masks) ↔
      ∀ p ∈ bytes.zip masks, p.1 &&& p.2 &&& 0xF0 = 0x30 &&& p.2 := by
  have hZip : (bytes.zip masks).length = 8 := by simp [hBytes, hMasks]
  have hHigh : (0xF0F0F0F0F0F0F0F0 : UInt64) =
      ofBytes (List.replicate ((bytes.zip masks).map fun p => p.1 &&& p.2).length 0xF0) := by
    rw [List.length_map, hZip]
    decide
  have hThree : (0x3030303030303030 : UInt64) = ofBytes (List.replicate masks.length 0x30) := by
    rw [hMasks]
    decide
  have hSecond : (bytes.zip masks).map Prod.snd = masks := List.map_snd_zip (by omega)
  rw [HighHalves, ofBytes_and_ofBytes (by omega), hHigh, ofBytes_and_replicate, hThree,
    UInt64.and_comm, ofBytes_and_replicate, ofBytes_inj (by simp [hZip]) (by simp [hMasks])]
  conv_lhs => rhs; rw [← hSecond]
  rw [List.map_map, List.map_map, List.map_inj_left]
  simp only [Function.comp_apply, UInt8.and_comm (0x30 : UInt8)]

theorem lowHalves_iff {bytes masks : List UInt8} (hBytes : bytes.length = 8)
    (hMasks : masks.length = 8) :
    LowHalves (ofBytes bytes) (ofBytes masks) ↔
      ∀ p ∈ bytes.zip masks, ((p.1 &&& 0x0F) + 6) &&& 0x10 &&& p.2 = 0 := by
  have hLow : (0x0F0F0F0F0F0F0F0F : UInt64) = ofBytes (List.replicate bytes.length 0x0F) := by
    rw [hBytes]
    decide
  have hSix : (0x0606060606060606 : UInt64) =
      ofBytes (List.replicate (bytes.map (· &&& 0x0F)).length 6) := by
    rw [List.length_map, hBytes]
    decide
  have hFour : (0x1010101010101010 : UInt64) =
      ofBytes (List.replicate ((bytes.map (· &&& 0x0F)).map (· + 6)).length 0x10) := by
    rw [List.length_map, List.length_map, hBytes]
    decide
  have hZero : (0 : UInt64) = ofBytes ((bytes.zip masks).map fun _ => 0) := by
    rw [List.map_const', List.length_zip, hBytes, hMasks]
    decide
  have hCarry : ∀ b ∈ bytes.map (· &&& 0x0F), b.toNat + (6 : UInt8).toNat < 256 := by
    intro b hb
    obtain ⟨c, -, rfl⟩ := List.mem_map.mp hb
    exact forall_byte (P := fun c => (c &&& 0x0F).toNat + (6 : UInt8).toNat < 256)
      (by decide +kernel) c
  rw [LowHalves, hLow, ofBytes_and_replicate, hSix, ofBytes_add_replicate hCarry, hFour,
    ofBytes_and_replicate, ofBytes_and_ofBytes (by simp [hBytes, hMasks]), hZero,
    ofBytes_inj (by simp [hBytes, hMasks]) (by simp [hBytes, hMasks])]
  simp only [List.map_map, List.zip_map_left, List.map_inj_left, Function.comp_apply, Prod.map_fst,
    Prod.map_snd, id_eq]

/-- The two tests together find the digits: every covered byte is one. -/
theorem halves_iff {bytes masks : List UInt8} (hBytes : bytes.length = 8)
    (hMasks : masks.length = 8) (hCover : ∀ m ∈ masks, m = 0 ∨ m = 0xFF) :
    HighHalves (ofBytes bytes) (ofBytes masks) ∧ LowHalves (ofBytes bytes) (ofBytes masks) ↔
      ∀ p ∈ bytes.zip masks, p.2 = 0xFF → IsDigit p.1 := by
  rw [highHalves_iff hBytes hMasks, lowHalves_iff hBytes hMasks]
  rw [← forall₂_and]
  refine forall₂_congr fun p hp => ?_
  have hCovered :
      (p.1 &&& 0xFF &&& 0xF0 = 0x30 &&& 0xFF ∧ ((p.1 &&& 0x0F) + 6) &&& 0x10 &&& 0xFF = 0) ↔
      IsDigit p.1 :=
    forall_byte (P := fun b => (b &&& 0xFF &&& 0xF0 = 0x30 &&& 0xFF ∧
      ((b &&& 0x0F) + 6) &&& 0x10 &&& 0xFF = 0) ↔ IsDigit b) (by decide +kernel) p.1
  rcases hCover p.2 (List.of_mem_zip hp).2 with hMask | hMask
  · simp [hMask]
  · rw [hMask, hCovered]
    simp

/-! ### The four shapes -/

/-- The first point among the second to fourth byte is the first of them whose bit four is clear. -/
theorem pointBit_ofBytes (a b c d : UInt8) (rest : List UInt8) :
    pointBit (ofBytes (a :: b :: c :: d :: rest)) =
      if b &&& 0x10 = 0 then 12 else if c &&& 0x10 = 0 then 20 else if d &&& 0x10 =
        0 then 28 else 64 := by
  have hBits : pointBits = ofBytes [0, 0x10, 0x10, 0x10] := by decide
  have hTest (x : UInt8) : ~~~x &&& 0x10 = if x &&& 0x10 = 0 then 0x10 else 0 :=
    forall_byte (P := fun x => ~~~x &&& 0x10 = if x &&& 0x10 = 0 then 0x10 else 0)
      (by decide +kernel) x
  simp only [pointBit, hBits, ofBytes_cons, ofBytes_nil, cons_not, cons_and, hTest, UInt64.and_zero,
    UInt8.and_zero]
  split_ifs <;> decide

theorem signed_ofBytes (a : UInt8) (rest : List UInt8) :
    signed (ofBytes (a :: rest)) = decide (a &&& 0x10 = 0) := by
  have hBit : (0x10 : UInt64) = ofBytes [0x10] := by decide
  have hTest (x : UInt8) : ~~~x &&& 0x10 = if x &&& 0x10 = 0 then 0x10 else 0 :=
    forall_byte (P := fun x => ~~~x &&& 0x10 = if x &&& 0x10 = 0 then 0x10 else 0)
      (by decide +kernel) x
  simp only [signed, hBit, ofBytes_cons, ofBytes_nil, cons_not, cons_and, hTest, UInt64.and_zero]
  split_ifs <;> simp [*] <;> decide

/-- A word shifted down by whole bytes begins with the byte at that index. -/
theorem toUInt8_shiftRight {bytes : List UInt8} (hLength : bytes.length ≤ 8) {k : Nat}
    (hk : k < bytes.length) :
    (ofBytes bytes >>> (8 * k).toUInt64).toUInt8 = bytes[k] := by
  have hValue : ∀ (l : List UInt8) (k : Nat) (hk : k < l.length), value l / 256 ^ k % 256 =
      l[k].toNat := by
    intro l
    induction l with
    | nil => intro k hk; simp at hk
    | cons b rest ih =>
        intro k hk
        have hByte := b.toNat_lt
        cases k with
        | zero => simp only [value, List.getElem_cons_zero]; omega
        | succ k =>
            have hDiv : (256 * value rest + b.toNat) / 256 = value rest := by omega
            rw [value, Nat.pow_succ', ← Nat.div_div_eq_div_mul, hDiv, List.getElem_cons_succ,
              ih k (by simpa using hk)]
  apply UInt8.toNat_inj.mp
  rw [UInt64.toNat_toUInt8, UInt64.toNat_shiftRight, toNat_ofBytes hLength, ← hValue bytes k hk]
  have hShift : (8 * k).toUInt64.toNat % 64 = 8 * k := by
    rw [UInt64.toNat_ofNat', Nat.mod_eq_of_lt] <;> omega
  rw [hShift, Nat.shiftRight_eq_div_pow, Nat.pow_mul]

/-- The bytes at `point` and around it that have to be digits. -/
def digitMask (sign point : Nat) : List UInt8 :=
  (List.range 8).map fun i => if sign ≤ i ∧ i < point ∨ i = point + 1 then 0xFF else 0

/-- A word is well-formed if the point stands behind one or two digits and before one, with a minus
sign in front of them when it is negative. -/
theorem wellFormed_iff {bytes : List UInt8} (h : bytes.length = 8) (p : Nat) (negative : Bool) :
    WellFormed (ofBytes bytes) p negative ↔
      p ≤ 3 ∧ negative.toNat < p ∧ p - negative.toNat ≤ 2 ∧ (negative = true → bytes[0] = minus) ∧
        bytes[p]? = some point ∧
        ∀ q ∈ bytes.zip (digitMask negative.toNat p), q.2 = 0xFF → IsDigit q.1 := by
  have hSign : (if negative = true then 1 else 0) = negative.toNat := by cases negative <;> rfl
  have hFirst : (ofBytes bytes).toUInt8 = bytes[0] := by
    simpa using toUInt8_shiftRight h.le (show 0 < bytes.length by omega)
  simp only [WellFormed, hSign, hFirst]
  refine and_congr_right fun hp => and_congr_right fun hs => and_congr_right fun hd =>
    and_congr Iff.rfl (and_congr ?_ ?_)
  · have hIndex : p < bytes.length := by omega
    rw [toUInt8_shiftRight h.le hIndex, List.getElem?_eq_getElem hIndex, Option.some_inj]
    rfl
  · have hPlaces : (bytesBelow p &&& ~~~bytesBelow negative.toNat) |||
        ((0xFF : UInt64) <<< (8 * (p + 1)).toUInt64) = ofBytes (digitMask negative.toNat p) := by
      revert hp hs hd
      revert p
      cases negative <;> decide
    rw [hPlaces]
    refine halves_iff h (by simp [digitMask]) ?_
    intro m hm
    obtain ⟨i, -, rfl⟩ := List.mem_map.mp hm
    split
    · exact Or.inr rfl
    · exact Or.inl rfl

/-- A well-formed word begins with a reading. -/
theorem exists_reading_of_wellFormed {bytes : List UInt8} (h : bytes.length = 8) {p : Nat}
    {negative : Bool} (hWell : WellFormed (ofBytes bytes) p negative) :
    ∃ text rest tenths, bytes = text ++ rest ∧ IsReading text tenths := by
  obtain ⟨hp, hs, hd, hMinus, hPoint, hDigits⟩ := (wellFormed_iff h p negative).mp hWell
  rcases bytes with _ | ⟨a, _ | ⟨b, _ | ⟨c, _ | ⟨d, _ | ⟨e, rest⟩⟩⟩⟩⟩ <;> simp at h
  have hShape : p = 1 ∧ negative = false ∨ p = 2 ∧ negative = false ∨ p = 2 ∧ negative = true ∨
      p = 3 ∧ negative = true := by
    cases negative <;> simp at hs hd ⊢ <;> omega
  rcases hShape with ⟨rfl, rfl⟩ | ⟨rfl, rfl⟩ | ⟨rfl, rfl⟩ | ⟨rfl, rfl⟩
  · have hMask : digitMask 0 1 = [255, 0, 255, 0, 0, 0, 0, 0] := by decide
    simp [hMask] at hPoint hDigits
    subst hPoint
    exact ⟨[a, point, c], d :: e :: rest, _, rfl, .unsigned (.short hDigits.1 hDigits.2.1)⟩
  · have hMask : digitMask 0 2 = [255, 255, 0, 255, 0, 0, 0, 0] := by decide
    simp [hMask] at hPoint hDigits
    subst hPoint
    exact ⟨[a, b, point, d], e :: rest, _, rfl,
      .unsigned (.long hDigits.1 hDigits.2.1 hDigits.2.2.1)⟩
  · have hMask : digitMask 1 2 = [0, 255, 0, 255, 0, 0, 0, 0] := by decide
    simp [hMask] at hPoint hDigits hMinus
    subst hPoint hMinus
    exact ⟨[minus, b, point, d], e :: rest, _, rfl, .signed (.short hDigits.1 hDigits.2.1)⟩
  · have hMask : digitMask 1 3 = [0, 255, 255, 0, 255, 0, 0, 0] := by decide
    simp [hMask] at hPoint hDigits hMinus
    subst hPoint hMinus
    exact ⟨[minus, b, c, point, e], rest, _, rfl,
      .signed (.long hDigits.1 hDigits.2.1 hDigits.2.2.1)⟩

/-! ### The value -/

/-- The product moves the hundreds, tens and units of tenths onto each other. -/
theorem toNat_gathered {x y z : UInt8} (hx : x.toNat ≤ 9) (hy : y.toNat ≤ 9) (hz : z.toNat ≤ 9) :
    (((ofBytes [0, x, y, 0, z] * gather) >>> 32) &&& 0x3FF).toNat =
      100 * x.toNat + 10 * y.toNat + z.toNat := by
  have hGather : gather.toNat = 100 * 0x1000000 + 10 * 0x10000 + 1 := by decide
  rw [UInt64.toNat_and, UInt64.toNat_shiftRight, UInt64.toNat_mul, toNat_ofBytes (by simp), hGather]
  simp only [value, UInt64.reduceToNat, Nat.reduceMod, Nat.shiftRight_eq_div_pow, UInt8.reduceToNat]
  generalize x.toNat = x, y.toNat = y, z.toNat = z at *
  have hSplit : (256 * (256 * (256 * (256 * (256 * 0 + z) + 0) + y) + x) + 0) *
        (100 * 16777216 + 10 * 65536 + 1) =
      2 ^ 32 * (2 ^ 10 * (25 * y + 640 * z + 1638400 * z) + (100 * x + 10 * y + z)) +
        (167772160 * x + 256 * x + 65536 * y) := by omega
  have hWrap (n : Nat) : n % 2 ^ 64 / 2 ^ 32 % 2 ^ 10 = n / 2 ^ 32 % 2 ^ 10 := by omega
  rw [show (1023 : Nat) = 2 ^ 10 - 1 from rfl, Nat.and_two_pow_sub_one_eq_mod, hWrap, hSplit,
    Nat.mul_add_div (by decide), Nat.div_eq_of_lt (by omega), Nat.add_zero, Nat.mul_add_mod,
    Nat.mod_eq_of_lt (by omega)]

theorem toNat_low {b : UInt8} (h : IsDigit b) : (b &&& 0x0F).toNat = digitValue b :=
  forall_byte (P := fun b => IsDigit b → (b &&& 0x0F).toNat = digitValue b) (by decide +kernel) b h

theorem bitFour_ne_zero {b : UInt8} (h : IsDigit b) : b &&& 0x10 ≠ 0 :=
  forall_byte (P := fun b => IsDigit b → b &&& 0x10 ≠ 0) (by decide +kernel) b h

theorem point_bitFour : point &&& 0x10 = 0 := by decide

theorem minus_bitFour : minus &&& 0x10 = 0 := by decide

theorem shiftLeft_sixteen (w : UInt64) : w <<< 16 = cons 0 (cons 0 w) := by
  apply UInt64.toNat_inj.mp
  rw [UInt64.toNat_shiftLeft, toNat_cons, toNat_cons]
  simp only [UInt64.reduceToNat, Nat.reduceMod, Nat.shiftLeft_eq, UInt64.size, UInt8.reduceToNat]
  omega

/-- The bytes of a word with the sign cleared, moved so that the units stand in the third byte and
masked down to the low halves of the digits. -/
def placed (w : UInt64) (point : Nat) (negative : Bool) : UInt64 :=
  (if negative then w &&& ~~~0xFF else w) <<< (28 - point.toUInt64) &&& 0x0F000F0F00

/-- The mask leaves the places of the hundreds, tens and units of tenths. -/
theorem digitPlaces : (0x0F000F0F00 : UInt64) = ofBytes [0, 0x0F, 0x0F, 0, 0x0F] := by decide

theorem clear_sign (a : UInt8) (rest : List UInt8) :
    ofBytes (a :: rest) &&& ~~~0xFF = ofBytes (0 :: rest) := by
  have hMask : (~~~0xFF : UInt64) = cons 0 (~~~0) := by decide
  rw [hMask, ofBytes_cons, cons_and, UInt8.and_zero, show ~~~(0 : UInt64) = -1 from rfl,
    UInt64.and_neg_one]
  rfl

/-- The digits that are in place give the magnitude. The first of them may be missing. -/
theorem toNat_magnitude {w : UInt64} {point hundreds : Nat} {negative : Bool} {x y z : UInt8}
    (hPlaced : placed w point negative = ofBytes [0, x, y &&& 0x0F, 0, z &&& 0x0F])
    (hHundreds : x.toNat = hundreds) (hLe : hundreds ≤ 9) (hy : IsDigit y) (hz : IsDigit z) :
    (magnitude w point negative).toNat = 100 * hundreds + 10 * digitValue y + digitValue z := by
  have hGathered := toNat_gathered (x := x) (y := y &&& 0x0F) (z := z &&& 0x0F) (by omega)
    (by rw [toNat_low hy]; exact hy.digitValue_le) (by rw [toNat_low hz]; exact hz.digitValue_le)
  rw [toNat_low hy, toNat_low hz, hHundreds, ← hPlaced] at hGathered
  exact hGathered

/-- What a word is read as, once its shape is known. -/
theorem ofWord?_eq {w : UInt64} {p n : Nat} {negative : Bool} (hPoint : pointBit w = 8 * p + 4)
    (hSigned : signed w = negative) (hWell : WellFormed w p negative)
    (hValue : (magnitude w (8 * p + 4) negative).toNat = n) :
    ofWord? w = some { length := p + 3, tenths := if negative then -(n : Int) else n } := by
  have hIndex : (8 * p + 4) / 8 = p := by omega
  simp only [ofWord?, hPoint, hSigned, hIndex, hValue]
  rw [if_pos hWell]

/-- A mask that is zero from some place on asks nothing of the bytes there. -/
theorem digits_append_zeros {bytes masks rest : List UInt8} {n : Nat}
    (hLength : bytes.length = masks.length) (h : ∀ q ∈ bytes.zip masks, q.2 = 0xFF → IsDigit q.1) :
    ∀ q ∈ (bytes ++ rest).zip (masks ++ List.replicate n 0), q.2 = 0xFF → IsDigit q.1 := by
  intro q hq hCovered
  rw [List.zip_append hLength, List.mem_append] at hq
  rcases hq with hq | hq
  · exact h q hq hCovered
  · have hZero := List.eq_of_mem_replicate (List.of_mem_zip hq).2
    rw [hZero] at hCovered
    exact absurd hCovered (by decide)

theorem ofWord?_short {units tenths : UInt8} {rest : List UInt8} (hLength : rest.length = 5)
    (hUnits : IsDigit units) (hTenths : IsDigit tenths) :
    ofWord? (ofBytes ([units, point, tenths] ++ rest)) =
      some { length := 4, tenths := (10 * digitValue units + digitValue tenths : Nat) } := by
  obtain ⟨d, rest, rfl⟩ := List.exists_cons_of_length_eq_add_one hLength
  have hWell : WellFormed (ofBytes ([units, point, tenths] ++ d :: rest)) 1 false := by
    have hMask : digitMask 0 1 = [255, 0, 255] ++ List.replicate 5 0 := by decide
    rw [wellFormed_iff (by simpa using hLength), Bool.toNat_false, hMask]
    refine ⟨by decide, by decide, by decide, by simp, rfl, digits_append_zeros rfl ?_⟩
    simp [hUnits, hTenths]
  have hPlaced : placed (ofBytes ([units, point, tenths] ++ d :: rest)) 12 false =
      ofBytes [0, 0, units &&& 0x0F, 0, tenths &&& 0x0F] := by
    rw [placed, show 28 - (12 : Nat).toUInt64 = 16 by decide, shiftLeft_sixteen, digitPlaces]
    simp [cons_and]
  refine (ofWord?_eq ?_ ?_ hWell (toNat_magnitude hPlaced rfl (by decide) hUnits hTenths)).trans ?_
  · exact (pointBit_ofBytes units point tenths d rest).trans (if_pos point_bitFour)
  · exact (signed_ofBytes units _).trans (decide_eq_false (bitFour_ne_zero hUnits))
  · simp

theorem ofWord?_long {tens units tenths : UInt8} {rest : List UInt8} (hLength : rest.length = 4)
    (hTens : IsDigit tens) (hUnits : IsDigit units) (hTenths : IsDigit tenths) :
    ofWord? (ofBytes ([tens, units, point, tenths] ++ rest)) =
      some
        { length := 5
          tenths :=
            (100 * digitValue tens + 10 * digitValue units + digitValue tenths : Nat) } := by
  have hWell : WellFormed (ofBytes ([tens, units, point, tenths] ++ rest)) 2 false := by
    have hMask : digitMask 0 2 = [255, 255, 0, 255] ++ List.replicate 4 0 := by decide
    rw [wellFormed_iff (by simpa using hLength), Bool.toNat_false, hMask]
    refine ⟨by decide, by decide, by decide, by simp, rfl, digits_append_zeros rfl ?_⟩
    simp [hTens, hUnits, hTenths]
  have hPlaced : placed (ofBytes ([tens, units, point, tenths] ++ rest)) 20 false =
      ofBytes [0, tens &&& 0x0F, units &&& 0x0F, 0, tenths &&& 0x0F] := by
    rw [placed, show 28 - (20 : Nat).toUInt64 = 8 by decide, shiftLeft_eight, digitPlaces]
    simp [cons_and]
  refine (ofWord?_eq ?_ ?_ hWell
    (toNat_magnitude hPlaced (toNat_low hTens) hTens.digitValue_le hUnits hTenths)).trans ?_
  · refine (pointBit_ofBytes tens units point tenths rest).trans ?_
    rw [if_neg (bitFour_ne_zero hUnits), if_pos point_bitFour]
  · exact (signed_ofBytes tens _).trans (decide_eq_false (bitFour_ne_zero hTens))
  · simp

theorem ofWord?_minus_short {units tenths : UInt8} {rest : List UInt8} (hLength : rest.length = 4)
    (hUnits : IsDigit units) (hTenths : IsDigit tenths) :
    ofWord? (ofBytes ([minus, units, point, tenths] ++ rest)) =
      some { length := 5, tenths := -(10 * digitValue units + digitValue tenths : Nat) } := by
  have hWell : WellFormed (ofBytes ([minus, units, point, tenths] ++ rest)) 2 true := by
    have hMask : digitMask 1 2 = [0, 255, 0, 255] ++ List.replicate 4 0 := by decide
    rw [wellFormed_iff (by simpa using hLength), Bool.toNat_true, hMask]
    refine ⟨by decide, by decide, by decide, fun _ => rfl, rfl, digits_append_zeros rfl ?_⟩
    simp [hUnits, hTenths]
  have hPlaced : placed (ofBytes ([minus, units, point, tenths] ++ rest)) 20 true =
      ofBytes [0, 0, units &&& 0x0F, 0, tenths &&& 0x0F] := by
    rw [placed, if_pos rfl, List.cons_append, clear_sign, show 28 - (20 : Nat).toUInt64 =
      8 by decide, shiftLeft_eight, digitPlaces]
    simp [cons_and]
  refine (ofWord?_eq ?_ ?_ hWell (toNat_magnitude hPlaced rfl (by decide) hUnits hTenths)).trans ?_
  · refine (pointBit_ofBytes minus units point tenths rest).trans ?_
    rw [if_neg (bitFour_ne_zero hUnits), if_pos point_bitFour]
  · exact (signed_ofBytes minus _).trans (decide_eq_true minus_bitFour)
  · simp

theorem ofWord?_minus_long {tens units tenths : UInt8} {rest : List UInt8}
    (hLength : rest.length = 3) (hTens : IsDigit tens) (hUnits : IsDigit units)
    (hTenths : IsDigit tenths) :
    ofWord? (ofBytes ([minus, tens, units, point, tenths] ++ rest)) =
      some
        { length := 6
          tenths :=
            -(100 * digitValue tens + 10 * digitValue units + digitValue tenths : Nat) } := by
  have hWell : WellFormed (ofBytes ([minus, tens, units, point, tenths] ++ rest)) 3 true := by
    have hMask : digitMask 1 3 = [0, 255, 255, 0, 255] ++ List.replicate 3 0 := by decide
    rw [wellFormed_iff (by simpa using hLength), Bool.toNat_true, hMask]
    refine ⟨by decide, by decide, by decide, fun _ => rfl, rfl, digits_append_zeros rfl ?_⟩
    simp [hTens, hUnits, hTenths]
  have hPlaced : placed (ofBytes ([minus, tens, units, point, tenths] ++ rest)) 28 true =
      ofBytes [0, tens &&& 0x0F, units &&& 0x0F, 0, tenths &&& 0x0F] := by
    rw [placed, if_pos rfl, List.cons_append, clear_sign, show 28 - (28 : Nat).toUInt64 =
      0 by decide, UInt64.shiftLeft_zero, digitPlaces]
    simp [cons_and]
  refine (ofWord?_eq ?_ ?_ hWell
    (toNat_magnitude hPlaced (toNat_low hTens) hTens.digitValue_le hUnits hTenths)).trans ?_
  · refine (pointBit_ofBytes minus tens units point (tenths :: rest)).trans ?_
    rw [if_neg (bitFour_ne_zero hTens), if_neg (bitFour_ne_zero hUnits), if_pos point_bitFour]
  · exact (signed_ofBytes minus _).trans (decide_eq_true minus_bitFour)
  · simp

/-! ### Reading a word -/

/-- A word that begins with a reading is read as that. -/
theorem ofWord?_of_isReading {text rest : List UInt8} {tenths : Int}
    (hLength : (text ++ rest).length = 8) (h : IsReading text tenths) :
    ofWord? (ofBytes (text ++ rest)) = some { length := text.length + 1, tenths } := by
  have hRest : text.length + rest.length = 8 := by rw [← hLength, List.length_append]
  cases h with
  | unsigned h =>
      cases h with
      | short hUnits hTenths => exact ofWord?_short (by simp at hRest; omega) hUnits hTenths
      | long hTens hUnits hTenths =>
          exact ofWord?_long (by simp at hRest; omega) hTens hUnits hTenths
  | signed h =>
      cases h with
      | short hUnits hTenths => exact ofWord?_minus_short (by simp at hRest; omega) hUnits hTenths
      | long hTens hUnits hTenths =>
          exact ofWord?_minus_long (by simp at hRest; omega) hTens hUnits hTenths

/-- A word is read exactly if its bytes begin with a reading, with the length and value of that.
What follows the reading does not matter. -/
theorem ofWord?_eq_some_iff {bytes : List UInt8} (h : bytes.length = 8) (m : Measurement) :
    ofWord? (ofBytes bytes) = some m ↔
      ∃ text rest, bytes = text ++ rest ∧ IsReading text m.tenths ∧ m.length = text.length + 1 := by
  constructor
  · intro hRead
    have hWell :
        WellFormed (ofBytes bytes) (pointBit (ofBytes bytes) / 8) (signed (ofBytes bytes)) := by
      by_contra hIll
      simp [ofWord?, hIll] at hRead
    obtain ⟨text, rest, tenths, rfl, hReading⟩ := exists_reading_of_wellFormed h hWell
    rw [ofWord?_of_isReading h hReading, Option.some_inj] at hRead
    subst hRead
    exact ⟨text, rest, rfl, hReading, rfl⟩
  · rintro ⟨text, rest, rfl, hReading, hRead⟩
    rw [ofWord?_of_isReading h hReading, ← hRead]

end StationStats.Measurement
