import StationStats.Word

/-!
The reading at the end of a row: an optional minus sign, one or two digits, a point and one digit,
read from a single word without a branch per byte. The byte after the reading is not looked at.
-/

namespace StationStats

/-- A reading in tenths, and the bytes it takes together with the byte that follows it. -/
structure Measurement where
  length : Nat
  tenths : Int
  deriving DecidableEq, Repr

namespace Measurement

/-- Bit four of the second to fourth byte: set in a digit, clear in a point and in a minus sign. -/
def pointBits : UInt64 := 0x10101000

/-- Gathers hundreds, tens and units at bit thirty-two of the product. -/
def gather : UInt64 := 100 * 0x1000000 + 10 * 0x10000 + 1

/-- Bit position of the first point among the second to fourth byte; 64 if there is none. -/
def pointBit (w : UInt64) : Nat := Word.trailingZeros (~~~w &&& pointBits)

/-- Bit four of the first byte is clear, as it is in a minus sign and in no digit. -/
def signed (w : UInt64) : Bool := ~~~w &&& 0x10 ≠ 0

/-- The low `n` bytes of a word all set. -/
def bytesBelow (n : Nat) : UInt64 := (1 <<< (8 * n).toUInt64) - 1

/-- One or two digits behind the sign, a point at byte `point`, and one digit behind it. Whether a
byte is a digit is decided for all of them at once: the high half is three, and six more than the
low half does not carry. -/
def WellFormed (w : UInt64) (point : Nat) (negative : Bool) : Prop :=
  let sign := if negative then 1 else 0
  point ≤ 3 ∧ sign < point ∧ point - sign ≤ 2 ∧
    (negative = true → w.toUInt8 = 45) ∧
    (w >>> (8 * point).toUInt64).toUInt8 = 46 ∧
    let places := (bytesBelow point &&& ~~~bytesBelow sign) |||
      ((0xFF : UInt64) <<< (8 * (point + 1)).toUInt64)
    w &&& places &&& 0xF0F0F0F0F0F0F0F0 = 0x3030303030303030 &&& places ∧
      ((w &&& 0x0F0F0F0F0F0F0F0F) + 0x0606060606060606) &&& 0x1010101010101010 &&& places = 0

instance (w : UInt64) (point : Nat) (negative : Bool) :
    Decidable (WellFormed w point negative) := by
  unfold WellFormed; infer_instance

/-- The magnitude in tenths: the digits are moved to fixed places below the point at bit `point`,
and one product adds them up with their weights. -/
def magnitude (w : UInt64) (point : Nat) (negative : Bool) : UInt64 :=
  let unsigned := if negative then w &&& ~~~0xFF else w
  let placed := (unsigned <<< (28 - point.toUInt64)) &&& 0x0F000F0F00
  ((placed * gather) >>> 32) &&& 0x3FF

/-- The reading that the bytes of the word begin with. -/
def ofWord? (w : UInt64) : Option Measurement :=
  let point := pointBit w
  let negative := signed w
  if WellFormed w (point / 8) negative then
    let size : Int := (magnitude w point negative).toNat
    some { length := point / 8 + 3, tenths := if negative then -size else size }
  else none

end Measurement

end StationStats
