import Mathlib.Tactic.IntervalCases
import StationStats.Word

/-!
Words seen as the bytes they were packed from. A word is built by putting one byte below the bytes
of another; every operation of the searches and of the readings is stated on such a word once, so
that later proofs follow the list of bytes and never look at a bit.
-/

namespace StationStats.Word

/-- What holds of all numbers below 256 holds of all bytes. This is how facts about
one byte are decided. -/
theorem forall_byte {P : UInt8 → Prop} (h : ∀ n < 256, P (UInt8.ofNat n)) (b : UInt8) : P b := by
  simpa using h b.toNat b.toNat_lt

/-- The word with lowest byte `b` above which the low seven bytes of `w` stand. -/
def cons (b : UInt8) (w : UInt64) : UInt64 := (w <<< 8) ||| b.toUInt64

@[simp] theorem ofBytes_nil : ofBytes [] = 0 := rfl

@[simp] theorem ofBytes_cons (b : UInt8) (rest : List UInt8) :
    ofBytes (b :: rest) = cons b (ofBytes rest) := rfl

/-- The low eight bits of a word are those of its lowest byte. -/
theorem getLsbD_cons (b : UInt8) (w : UInt64) (i : Nat) :
    (cons b w).toBitVec.getLsbD i =
      if i < 8 then b.toBitVec.getLsbD i else decide (i < 64) && w.toBitVec.getLsbD (i - 8) := by
  by_cases hLow : i < 8
  · have hWord : i < 64 := by omega
    simp [cons, UInt64.toBitVec_shiftLeft, hLow, hWord]
  · have hByte : b.toBitVec.getLsbD i = false := BitVec.getLsbD_of_ge _ _ (by omega)
    simp [cons, UInt64.toBitVec_shiftLeft, hLow, hByte]

/-- Two words are equal when all their bits are. -/
theorem eq_of_getLsbD {v w : UInt64}
    (h : ∀ i < 64, v.toBitVec.getLsbD i = w.toBitVec.getLsbD i) : v = w :=
  UInt64.toBitVec_inj.mp (BitVec.eq_of_getLsbD_eq h)

theorem cons_and (p q : UInt8) (v w : UInt64) :
    cons p v &&& cons q w = cons (p &&& q) (v &&& w) := by
  apply eq_of_getLsbD
  intro i hi
  simp only [UInt64.toBitVec_and, UInt8.toBitVec_and, BitVec.getLsbD_and, getLsbD_cons]
  split <;> simp [hi]

theorem cons_xor (p q : UInt8) (v w : UInt64) :
    cons p v ^^^ cons q w = cons (p ^^^ q) (v ^^^ w) := by
  apply eq_of_getLsbD
  intro i hi
  simp only [UInt64.toBitVec_xor, UInt8.toBitVec_xor, BitVec.getLsbD_xor, getLsbD_cons]
  split <;> simp [hi]

theorem cons_not (p : UInt8) (w : UInt64) : ~~~cons p w = cons (~~~p) (~~~w) := by
  apply eq_of_getLsbD
  intro i hi
  simp only [UInt64.toBitVec_not, UInt8.toBitVec_not, BitVec.getLsbD_not, getLsbD_cons]
  split
  · simp [*]
  · have hShifted : i - 8 < 64 := by omega
    simp [hi, hShifted]

/-- A word as a number: its lowest byte, and the other bytes one place up. -/
theorem toNat_cons (b : UInt8) (w : UInt64) :
    (cons b w).toNat = (256 * w.toNat + b.toNat) % UInt64.size := by
  have hByte := b.toNat_lt
  have hDisjoint :
      w.toNat <<< 8 % UInt64.size ||| b.toNat = w.toNat <<< 8 % UInt64.size + b.toNat := by
    have hLow : w.toNat <<< 8 % UInt64.size = (w.toNat % 2 ^ 56) <<< 8 := by
      simp only [Nat.shiftLeft_eq, UInt64.size]
      omega
    rw [hLow, Nat.shiftLeft_add_eq_or_of_lt hByte]
  rw [cons, UInt64.toNat_or, UInt64.toNat_shiftLeft, UInt8.toNat_toUInt64]
  simp only [UInt64.reduceToNat, Nat.reduceMod]
  rw [show (2 : Nat) ^ 64 = UInt64.size from rfl, hDisjoint, Nat.shiftLeft_eq]
  simp only [UInt64.size]
  omega

theorem toNat_cons_of_lt {b : UInt8} {w : UInt64} (h : w.toNat < 2 ^ 56) :
    (cons b w).toNat = 256 * w.toNat + b.toNat := by
  have hByte := b.toNat_lt
  rw [toNat_cons, Nat.mod_eq_of_lt]
  simp only [UInt64.size]
  omega

@[simp] theorem toUInt8_cons (b : UInt8) (w : UInt64) : (cons b w).toUInt8 = b := by
  have hByte := b.toNat_lt
  apply UInt8.toNat_inj.mp
  rw [UInt64.toNat_toUInt8, toNat_cons]
  simp only [UInt64.size]
  omega

/-- A byte is taken off again by a shift when no byte was pushed out at the top. -/
theorem cons_shiftRight {b : UInt8} {w : UInt64} (h : w.toNat < 2 ^ 56) : cons b w >>> 8 = w := by
  have hByte := b.toNat_lt
  apply UInt64.toNat_inj.mp
  rw [UInt64.toNat_shiftRight, toNat_cons_of_lt h]
  simp only [UInt64.reduceToNat, Nat.reduceMod, Nat.shiftRight_eq_div_pow]
  omega

/-- Bytes are added place by place as long as the lowest does not carry. -/
theorem cons_add {p q : UInt8} {v w : UInt64} (h : p.toNat + q.toNat < 256) :
    cons p v + cons q w = cons (p + q) (v + w) := by
  apply UInt64.toNat_inj.mp
  rw [UInt64.toNat_add, toNat_cons, toNat_cons, toNat_cons, UInt64.toNat_add, UInt8.toNat_add]
  simp only [UInt64.size]
  omega

/-- Bytes are subtracted place by place as long as the lowest does not borrow. -/
theorem cons_sub {p q : UInt8} {v w : UInt64} (h : q ≤ p) :
    cons p v - cons q w = cons (p - q) (v - w) := by
  have hLe : q.toNat ≤ p.toNat := UInt8.le_iff_toNat_le.mp h
  have hByte := p.toNat_lt
  have hWord := w.toNat_lt
  apply UInt64.toNat_inj.mp
  rw [UInt64.toNat_sub, toNat_cons, toNat_cons, toNat_cons, UInt64.toNat_sub, UInt8.toNat_sub]
  simp only [UInt64.size]
  omega

/-- A word shifted by one byte gains a zero below. -/
theorem shiftLeft_eight (w : UInt64) : w <<< 8 = cons 0 w := by
  simp [cons]

theorem cons_zero_zero : cons 0 0 = 0 := rfl

/-- The number that the bytes stand for, the first byte counting ones. -/
def value : List UInt8 → Nat
  | [] => 0
  | b :: rest => 256 * value rest + b.toNat

theorem value_lt (bytes : List UInt8) : value bytes < 256 ^ bytes.length := by
  induction bytes with
  | nil => simp [value]
  | cons b rest ih =>
      have hByte := b.toNat_lt
      rw [value, List.length_cons, Nat.pow_succ]
      omega

theorem value_lt_of_length_le {bytes : List UInt8} {n : Nat} (h : bytes.length ≤ n) :
    value bytes < 256 ^ n :=
  (value_lt bytes).trans_le (Nat.pow_le_pow_right (by decide) h)

/-- A word is the number that its bytes stand for. -/
theorem toNat_ofBytes {bytes : List UInt8} (h : bytes.length ≤ 8) :
    (ofBytes bytes).toNat = value bytes := by
  induction bytes with
  | nil => rfl
  | cons b rest ih =>
      have hRest := ih (by simp only [List.length_cons] at h; omega)
      have hSmall : value rest < 256 ^ 7 :=
        value_lt_of_length_le (by simp only [List.length_cons] at h; omega)
      rw [ofBytes_cons, toNat_cons_of_lt (by rw [hRest]; omega), hRest, value]

/-- Packed bytes are read back by taking off the lowest byte again and again. -/
theorem lowBytes_ofBytes {bytes : List UInt8} (h : bytes.length ≤ 8) :
    lowBytes bytes.length (ofBytes bytes) = bytes := by
  induction bytes with
  | nil => rfl
  | cons b rest ih =>
      have hLength : rest.length ≤ 7 := by simp only [List.length_cons] at h; omega
      have hSmall : (ofBytes rest).toNat < 2 ^ 56 := by
        rw [toNat_ofBytes (by omega)]
        exact value_lt_of_length_le hLength
      rw [List.length_cons, lowBytes, ofBytes_cons, toUInt8_cons, cons_shiftRight hSmall,
        ih (by omega)]

theorem toBytes_ofBytes {bytes : List UInt8} (h : bytes.length = 8) :
    toBytes (ofBytes bytes) = bytes := by
  rw [toBytes, ← h, lowBytes_ofBytes h.le]

theorem ofBytes_inj {first second : List UInt8} (hFirst : first.length = 8)
    (hSecond : second.length = 8) :
    ofBytes first = ofBytes second ↔ first = second := by
  constructor
  · intro h
    rw [← toBytes_ofBytes hFirst, h, toBytes_ofBytes hSecond]
  · exact congrArg ofBytes

/-- Missing bytes count as zeros. -/
theorem ofBytes_append_zeros (bytes : List UInt8) (n : Nat) :
    ofBytes (bytes ++ List.replicate n 0) = ofBytes bytes := by
  induction bytes with
  | nil =>
      induction n with
      | zero => rfl
      | succ n ih => simpa [List.replicate_succ, cons_zero_zero] using congrArg (cons 0) ih
  | cons b rest ih => simp [ih]

/-- Fewer than eight bytes are read back with zeros behind them. -/
theorem toBytes_ofBytes_eq {bytes : List UInt8} (h : bytes.length ≤ 8) :
    toBytes (ofBytes bytes) = bytes ++ List.replicate (8 - bytes.length) 0 := by
  have hFilled : (bytes ++ List.replicate (8 - bytes.length) 0).length = 8 := by
    rw [List.length_append, List.length_replicate]
    omega
  rw [← ofBytes_append_zeros bytes (8 - bytes.length), toBytes_ofBytes hFilled]

/-- A word is loaded exactly where eight bytes are left, and it packs these. -/
theorem load?_eq (bytes : Bytes) (start : Nat) :
    load? bytes start =
      if start + 8 ≤ bytes.size then some (ofBytes ((bytes.toList.drop start).take 8))
        else none := by
  rw [load?]
  split
  · rename_i hSize
    have hTake : (bytes.toList.drop start).take 8 =
        [bytes[start], bytes[start + 1], bytes[start + 2], bytes[start + 3],
          bytes[start + 4], bytes[start + 5], bytes[start + 6], bytes[start + 7]] := by
      apply List.ext_getElem
      · simp; omega
      · intro i hTaken hListed
        have hi : i < 8 := by simpa using hListed
        interval_cases i <;> simp
    rw [hTake]
  · rfl

end StationStats.Word
