import StationStats.Limits
import StationStats.Word

/-!
A lane is a block of thirty-two bytes held as four words. Rows are searched a lane at a time.
-/

namespace StationStats

/-- Thirty-two bytes as four words, the first byte lowest in the first word. -/
structure Lane where
  first : UInt64
  second : UInt64
  third : UInt64
  fourth : UInt64
  deriving DecidableEq

namespace Lane

/-- The four words in order. -/
def words (lane : Lane) : List UInt64 := [lane.first, lane.second, lane.third, lane.fourth]

/-- The lane held by the bytes from `start` on, if thirty-two of them are there. -/
def load? (bytes : Bytes) (start : Nat) : Option Lane := do
  let first ← Word.load? bytes start
  let second ← Word.load? bytes (start + 8)
  let third ← Word.load? bytes (start + 16)
  let fourth ← Word.load? bytes (start + 24)
  return { first, second, third, fourth }

/-- Index of the first byte equal to `b`. -/
def find? (lane : Lane) (b : UInt8) : Option Nat := Word.find? b lane.words

/-- The words of the lane with every byte from index `n` on cleared. -/
def keep (lane : Lane) (n : Nat) : List UInt64 := Word.keep n lane.words

end Lane

end StationStats
