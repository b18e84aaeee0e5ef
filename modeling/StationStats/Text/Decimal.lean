/-!
Decimal text: the digits of a natural, and a double with a fixed number of decimal places, rounded
to the nearest from its exact value.
-/

namespace StationStats.Decimal

/-- The character of a digit below ten. -/
def digit (n : Nat) : Char := Char.ofNat (48 + n)

/-- The decimal digits of `n`, highest first, with no leading zero but for zero itself. -/
def digits (n : Nat) : List Char :=
  if n < 10 then [digit n] else digits (n / 10) ++ [digit (n % 10)]

/-- The digits of `n`, with leading zeros up to `width` places. -/
def padded (width n : Nat) : List Char :=
  let shown := digits n
  List.replicate (width - shown.length) '0' ++ shown

/-- `num / den` rounded to the nearest integer, a tie going to the even neighbour. -/
def roundDiv (num den : Nat) : Nat :=
  let low := num / den
  let rest := 2 * (num % den)
  if rest < den then low
  else if den < rest then low + 1
  else low + low % 2

/-- A finite double that is not negative, with `places` decimal places, rounded from its exact
value, a tie going to the even digit. -/
def fixed (places : Nat) (x : Float) : String :=
  let exponent := (x.toBits >>> 52 &&& 0x7ff).toNat
  let fraction := (x.toBits &&& 0xfffffffffffff).toNat
  let significand := if exponent = 0 then fraction else 0x10000000000000 + fraction
  let power := max exponent 1
  let one := Nat.pow 10 places
  let scaled := significand * one
  let units :=
    if 1075 ≤ power then scaled <<< (power - 1075) else roundDiv scaled (1 <<< (1075 - power))
  String.ofList (digits (units / one) ++ '.' :: padded places (units % one))

end StationStats.Decimal
