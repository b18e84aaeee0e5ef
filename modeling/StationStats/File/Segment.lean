import StationStats.Limits

/-!
Ranges of a file, and its division into nearly equal ones.
-/

namespace StationStats

/-- The bytes of a file from `offset` on, `length` of them. -/
structure Segment where
  offset : Nat
  length : Nat
  deriving DecidableEq, Repr

namespace Segment

/-- Where the segment ends. -/
def stop (segment : Segment) : Nat := segment.offset + segment.length

/-- The half-open interval of offsets. -/
def text (segment : Segment) : String := s!"[{segment.offset}, {segment.stop})"

/-- Length of the nearly equal ranges of a file for a number of threads. -/
def rawLength (fileLength threads : Nat) : Nat :=
  min (max (fileLength / max threads 1) leastSegment) fileLength

/-- Nearly equal ranges that make up a file, with no regard to its rows; none for a short file. What
the length of the ranges leaves over belongs to the last of them. -/
def raw (fileLength threads : Nat) : List Segment :=
  let length := rawLength fileLength threads
  if length < splitThreshold then []
  else
    let count := fileLength / length
    (List.range count).map fun i =>
      { offset := i * length
        length := if i + 1 = count then fileLength - i * length else length }

end Segment

end StationStats
