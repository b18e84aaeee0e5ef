/-!
Decoding of UTF-8. Overlong forms, surrogates and values above the last code point are ill-formed.
What is reported of ill-formed bytes is where they start and how many of them could still have begun
a character; bytes that end inside a character are incomplete.
-/

namespace StationStats.Utf8

/-- Why bytes are not UTF-8. -/
inductive DecodeError where
  /-- At `start` stand `length` bytes that no character begins with in this way. -/
  | invalid (length start : Nat)
  /-- The bytes end inside the character at `start`. -/
  | incomplete (start : Nat)
  deriving DecidableEq, Repr

/-- The text of an error. -/
def DecodeError.message : DecodeError → String
  | .invalid length start => s!"invalid utf-8 sequence of {length} bytes from index {start}"
  | .incomplete start => s!"incomplete utf-8 byte sequence from index {start}"

/-- A byte that continues a character. -/
def Continues (b : UInt8) : Prop := 0x80 ≤ b ∧ b ≤ 0xBF

instance (b : UInt8) : Decidable (Continues b) := by unfold Continues; infer_instance

/-- The second bytes that may follow the first byte of a character of three bytes. -/
def SecondOfThree (first second : UInt8) : Prop :=
  if first = 0xE0 then 0xA0 ≤ second ∧ second ≤ 0xBF
  else if first = 0xED then 0x80 ≤ second ∧ second ≤ 0x9F
  else Continues second

instance (first second : UInt8) : Decidable (SecondOfThree first second) := by
  unfold SecondOfThree; infer_instance

/-- The second bytes that may follow the first byte of a character of four bytes. -/
def SecondOfFour (first second : UInt8) : Prop :=
  if first = 0xF0 then 0x90 ≤ second ∧ second ≤ 0xBF
  else if first = 0xF4 then 0x80 ≤ second ∧ second ≤ 0x8F
  else Continues second

instance (first second : UInt8) : Decidable (SecondOfFour first second) := by
  unfold SecondOfFour; infer_instance

/-- The six bits that a continuing byte carries. -/
def payload (b : UInt8) : Nat := b.toNat % 64

/-- The characters that the bytes encode. `start` is the number of bytes before them. -/
def decodeFrom (start : Nat) : List UInt8 → Except DecodeError (List Char)
  | [] => .ok []
  | a :: rest =>
    if a < 0x80 then
      (decodeFrom (start + 1) rest).map (Char.ofNat a.toNat :: ·)
    else if 0xC2 ≤ a ∧ a ≤ 0xDF then
      match rest with
      | [] => .error (.incomplete start)
      | b :: rest =>
        if Continues b then
          (decodeFrom (start + 2) rest).map (Char.ofNat (a.toNat % 32 * 64 + payload b) :: ·)
        else .error (.invalid 1 start)
    else if 0xE0 ≤ a ∧ a ≤ 0xEF then
      match rest with
      | [] => .error (.incomplete start)
      | b :: rest =>
        if ¬ SecondOfThree a b then .error (.invalid 1 start)
        else match rest with
          | [] => .error (.incomplete start)
          | c :: rest =>
            if Continues c then
              (decodeFrom (start + 3) rest).map
                (Char.ofNat ((a.toNat % 16 * 64 + payload b) * 64 + payload c) :: ·)
            else .error (.invalid 2 start)
    else if 0xF0 ≤ a ∧ a ≤ 0xF4 then
      match rest with
      | [] => .error (.incomplete start)
      | b :: rest =>
        if ¬ SecondOfFour a b then .error (.invalid 1 start)
        else match rest with
          | [] => .error (.incomplete start)
          | c :: rest =>
            if ¬ Continues c then .error (.invalid 2 start)
            else match rest with
              | [] => .error (.incomplete start)
              | d :: rest =>
                if Continues d then
                  (decodeFrom (start + 4) rest).map (Char.ofNat
                    (((a.toNat % 8 * 64 + payload b) * 64 + payload c) * 64 + payload d) :: ·)
                else .error (.invalid 3 start)
    else .error (.invalid 1 start)

/-- The characters that the bytes encode. -/
def decode (bytes : List UInt8) : Except DecodeError (List Char) := decodeFrom 0 bytes

end StationStats.Utf8
