import StationStats.Fault
import StationStats.Text.Decimal

/-!
The time each stage of a run took, and its text in milliseconds with three decimal places.
-/

namespace StationStats

/-- A span of time; the nanoseconds stay below one second. -/
structure Duration where
  seconds : Nat
  nanoseconds : Nat
  deriving DecidableEq, Repr

namespace Duration

/-- A span from seconds and nanoseconds of any number, if its seconds fit sixty-four bits. -/
def ofParts (seconds nanoseconds : Nat) : Except Fault Duration :=
  let total := seconds + nanoseconds / 1000000000
  if total < UInt64.size then .ok { seconds := total, nanoseconds := nanoseconds % 1000000000 }
  else .error .overflow

/-- Both spans together. -/
def add (a b : Duration) : Except Fault Duration :=
  ofParts (a.seconds + b.seconds) (a.nanoseconds + b.nanoseconds)

/-- The span in milliseconds, in the arithmetic of doubles. -/
def milliseconds (d : Duration) : Float :=
  (d.seconds.toUInt64.toFloat + d.nanoseconds.toUInt64.toFloat / 1e9) * 1000.0

end Duration

/-- The time spent in each stage of a run. -/
structure Timings where
  opening : Duration
  segmenting : Duration
  setUp : Duration
  parsing : Duration
  merging : Duration
  tail : Duration
  formatting : Duration
  deriving DecidableEq, Repr

namespace Timings

/-- The time of all stages together. -/
def total (t : Timings) : Except Fault Duration := do
  let sum ← t.opening.add t.segmenting
  let sum ← sum.add t.setUp
  let sum ← sum.add t.parsing
  let sum ← sum.add t.merging
  let sum ← sum.add t.tail
  sum.add t.formatting

/-- The stages with their times, and the total. -/
def text (t : Timings) : Except Fault String := do
  let total ← t.total
  let stages :=
    [("open", t.opening), ("segment", t.segmenting), ("map/setup", t.setUp), ("parse", t.parsing),
      ("merge", t.merging), ("eof", t.tail), ("format", t.formatting), ("total", total)]
  let shown := stages.map fun (name, time) => s!"{name} {Decimal.fixed 3 time.milliseconds} ms"
  return String.intercalate ", " shown

end Timings

end StationStats
