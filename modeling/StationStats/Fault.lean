import StationStats.Limits

/-!
Two ways to stop early. A fault is a broken assumption about the input or the call, after which
nothing more is promised; a failure is an error that the caller is told about.
-/

namespace StationStats

/-- Broken assumptions. -/
inductive Fault where
  /-- A name of this many bytes does not fit a packed key. -/
  | nameTooLong (length : Nat)
  /-- A new station arrived at a table that already holds `capacity` of them. -/
  | tableFull (capacity : Nat)
  /-- No tabulated table size reaches the one asked for. -/
  | capacityTooLarge (wanted largest : Nat)
  /-- An access behind the end of some bytes. -/
  | outOfRange
  /-- A mean over no readings. -/
  | divisionByZero
  /-- A result outside the range of the field that holds it. -/
  | overflow
  deriving DecidableEq, Repr

/-- The text of the faults that have one. -/
def Fault.message? : Fault → Option String
  | .nameTooLong length => some s!"station name of {length} bytes exceeds {keyBytes}"
  | .tableFull capacity => some s!"more than {capacity} distinct stations"
  | .capacityTooLarge wanted largest =>
    some s!"{wanted} exceeds the largest supported table size {largest}"
  | .outOfRange => none
  | .divisionByZero => none
  | .overflow => none

/-- Why an operation stopped: with an error of its own kind, or on a fault. -/
inductive Halt (ε : Type) where
  | failed (error : ε)
  | fault (fault : Fault)
  deriving DecidableEq, Repr

/-- Puts an error into its context and leaves a fault as it is. -/
def Halt.map {ε ε' : Type} (context : ε → ε') : Halt ε → Halt ε'
  | .failed e => .failed (context e)
  | .fault f => .fault f

end StationStats
