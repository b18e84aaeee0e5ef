/-!
Byte strings, the two bytes that give a row its shape, and the few operations on them that the other
modules share: searches for a line feed, and overwriting part of a buffer.
-/

namespace StationStats

/-- The bytes of a file or of a read buffer. -/
abbrev Bytes := Array UInt8

/-- The byte that ends a row. -/
def lineFeed : UInt8 := 10

/-- The byte between the name and the reading of a row. -/
def separator : UInt8 := 59

namespace Bytes

/-- Index of the first line feed. -/
def firstLineFeed? (bytes : Bytes) : Option Nat :=
  bytes.findIdx? (· == lineFeed)

/-- Index of the last line feed among the first `n` bytes. -/
def lastLineFeed? (bytes : Bytes) : Nat → Option Nat
  | 0 => none
  | n + 1 => if bytes[n]? = some lineFeed then some n else lastLineFeed? bytes n

/-- Length of the whole rows among the first `n` bytes: up to and with the last line feed. -/
def wholeRows (bytes : Bytes) (n : Nat) : Nat :=
  match lastLineFeed? bytes n with
  | some i => i + 1
  | none => 0

/-- Overwrites the bytes from `start` on with those of the list. Bytes that would fall behind the
end are dropped, so the length never changes. -/
def overwrite (buffer : Bytes) (start : Nat) : List UInt8 → Bytes
  | [] => buffer
  | b :: rest => overwrite (buffer.setIfInBounds start b) (start + 1) rest

theorem size_overwrite (buffer : Bytes) (start : Nat) (new : List UInt8) :
    (overwrite buffer start new).size = buffer.size := by
  induction new generalizing buffer start with
  | nil => rfl
  | cons b rest ih => simp [overwrite, ih]

theorem lastLineFeed?_lt {bytes : Bytes} {n i : Nat} (h : bytes.lastLineFeed? n = some i) :
    i < n := by
  induction n with
  | zero => simp [lastLineFeed?] at h
  | succ n ih =>
      rw [lastLineFeed?] at h
      split at h
      · cases h; exact Nat.lt_succ_self _
      · exact Nat.lt_succ_of_lt (ih h)

/-- The whole rows end among the bytes looked at. -/
theorem wholeRows_le (bytes : Bytes) (n : Nat) : bytes.wholeRows n ≤ n := by
  rw [wholeRows]
  split
  · rename_i hLast; exact lastLineFeed?_lt hLast
  · exact Nat.zero_le n

end Bytes

end StationStats
