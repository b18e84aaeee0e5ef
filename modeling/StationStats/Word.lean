import StationStats.Bytes

/-!
Eight bytes at a time: packing bytes into a word with the first byte lowest, the way back, and the
search for a byte with whole-word arithmetic.
-/

namespace StationStats.Word

/-- The word whose bytes, lowest first, are those of the list. Missing bytes count as zero; only the
first eight are kept. -/
def ofBytes : List UInt8 → UInt64
  | [] => 0
  | b :: rest => (ofBytes rest <<< 8) ||| b.toUInt64

/-- The low `n` bytes of a word, lowest first. -/
def lowBytes : Nat → UInt64 → List UInt8
  | 0, _ => []
  | n + 1, w => w.toUInt8 :: lowBytes n (w >>> 8)

/-- The eight bytes of a word, lowest first. -/
def toBytes (w : UInt64) : List UInt8 := lowBytes 8 w

/-- The word held by the eight bytes from `start` on, if there are that many. -/
def load? (bytes : Bytes) (start : Nat) : Option UInt64 :=
  if h : start + 8 ≤ bytes.size then
    some (ofBytes [bytes[start], bytes[start + 1], bytes[start + 2], bytes[start + 3],
      bytes[start + 4], bytes[start + 5], bytes[start + 6], bytes[start + 7]])
  else none

/-- Words needed to hold `n` bytes. -/
def countFor (n : Nat) : Nat := (n + 7) / 8

/-- Number of clear bits below the lowest set one, looking at `n` bits at most. -/
def clearBits : Nat → UInt64 → Nat
  | 0, _ => 0
  | n + 1, w => if w &&& 1 = 1 then 0 else clearBits n (w >>> 1) + 1

/-- Number of clear bits below the lowest set one; 64 for zero. -/
def trailingZeros (w : UInt64) : Nat := clearBits 64 w

/-- The byte `1` in every place. -/
def ones : UInt64 := 0x0101010101010101

/-- The top bit of every byte. -/
def highBits : UInt64 := 0x8080808080808080

/-- A word whose lowest set bit is the top bit of the first byte of `w` equal to `b`; zero if no
byte is. A borrow may set further bits above that one, so only the lowest is meaningful. -/
def hits (w : UInt64) (b : UInt8) : UInt64 :=
  let x := w ^^^ (ones * b.toUInt64)
  (x - ones) &&& ~~~x &&& highBits

/-- Index of the first byte equal to `b` among the bytes of the words. -/
def find? (b : UInt8) : List UInt64 → Option Nat
  | [] => none
  | w :: rest =>
    let found := hits w b
    if found = 0 then (find? b rest).map (· + 8) else some (trailingZeros found / 8)

/-- Ones in the low `n` bytes, all bytes from eight on. -/
def lowMask (n : Nat) : UInt64 :=
  if n < 8 then (1 <<< (8 * n).toUInt64) - 1 else 0xFFFFFFFFFFFFFFFF

/-- The words with every byte from index `n` on cleared. -/
def keep (n : Nat) : List UInt64 → List UInt64
  | [] => []
  | w :: rest => (w &&& lowMask n) :: keep (n - 8) rest

theorem length_keep (n : Nat) (words : List UInt64) : (keep n words).length = words.length := by
  induction words generalizing n with
  | nil => rfl
  | cons w rest ih => simp [keep, ih]

end StationStats.Word
