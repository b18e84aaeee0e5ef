import StationStats.Fault
import StationStats.Text.Decimal

/-!
Temperatures as whole tenths of a degree: the mean of several readings and the text of one value.
-/

namespace StationStats.Tenths

/-- The number is one of the `size` values of a signed word, half of which are negative. -/
def Fits (size : Nat) (n : Int) : Prop := -((size / 2 : Nat) : Int) ≤ n ∧
    n < ((size / 2 : Nat) : Int)

instance (size : Nat) (n : Int) : Decidable (Fits size n) := by unfold Fits; infer_instance

/-- Twice the magnitude of the sum plus the count, over twice the count, cut toward zero, with the
sign of the sum. For a positive count this is the quotient rounded half away from zero. -/
def roundedMean (sum count : Int) : Int :=
  let magnitude := (2 * (sum.natAbs : Int) + count).tdiv (2 * count)
  if sum < 0 then -magnitude else magnitude

/-- The mean of `count` readings with the given sum. Every intermediate value has to fit sixty-four
bits, and there has to be a reading. -/
def mean (sum count : Int) : Except Fault Int :=
  if ¬ Fits UInt64.size (2 * (sum.natAbs : Int)) ∨
      ¬ Fits UInt64.size (2 * (sum.natAbs : Int) + count) then
    .error .overflow
  else if count = 0 then .error .divisionByZero
  else .ok (roundedMean sum count)

/-- A value in tenths as a decimal number with one fractional digit. -/
def chars (n : Int) : List Char :=
  (if n < 0 then ['-'] else []) ++
    Decimal.digits (n.natAbs / 10) ++ ['.', Decimal.digit (n.natAbs % 10)]

/-- The text of a value in tenths. -/
def text (n : Int) : String := String.ofList (chars n)

end StationStats.Tenths
