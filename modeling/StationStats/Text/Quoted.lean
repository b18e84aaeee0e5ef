import StationStats.Text.Decimal
import StationStats.Text.Visible

/-!
Text in double quotes, as paths appear in messages. Quotes and backslashes are escaped, and so are
the characters that do not show as a character of their own.
-/

namespace StationStats.Quoted

/-- The digit of a value below sixteen. -/
def hexDigit (n : Nat) : Char := if n < 10 then Decimal.digit n else Char.ofNat (87 + n)

/-- The hexadecimal digits of `n`, highest first. -/
def hexDigits (n : Nat) : List Char :=
  if n < 16 then [hexDigit n] else hexDigits (n / 16) ++ [hexDigit (n % 16)]

/-- The backslash. -/
def escape : Char := Char.ofNat 92

/-- The double quote. -/
def quote : Char := Char.ofNat 34

/-- One character of a quoted text. -/
def encodeChar (c : Char) : List Char :=
  if c = quote ∨ c = escape then [escape, c]
  else if c.toNat = 0 then [escape, '0']
  else if c.toNat = 9 then [escape, 't']
  else if c.toNat = 10 then [escape, 'n']
  else if c.toNat = 13 then [escape, 'r']
  else if Visible.shows c then [c]
  else escape :: 'u' :: '\x7b' :: (hexDigits c.toNat ++ ['\x7d'])

/-- The text between double quotes. -/
def encode (text : String) : String :=
  String.ofList (quote :: (text.toList.flatMap encodeChar ++ [quote]))

end StationStats.Quoted
