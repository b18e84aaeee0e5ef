import StationStats.Station.Tenths

/-!
The running summary of one station: how many readings, their sum, and the extremes.
-/

namespace StationStats

/-- Sum, number, least and greatest of some readings in tenths. -/
structure Aggregate where
  sum : Int
  count : Int
  least : Int
  greatest : Int
  deriving DecidableEq, Repr

namespace Aggregate

/-- The summary of one reading. -/
def single (value : Int) :
    Aggregate := { sum := value, count := 1, least := value, greatest := value }

/-- The summary of the readings of both, without regard to the width of the fields. -/
def join (a b : Aggregate) : Aggregate :=
  { sum := a.sum + b.sum
    count := a.count + b.count
    least := min a.least b.least
    greatest := max a.greatest b.greatest }

/-- The sum fits sixty-four bits and the count thirty-two. -/
def InRange (a : Aggregate) : Prop := Tenths.Fits UInt64.size a.sum ∧
    Tenths.Fits UInt32.size a.count

instance (a : Aggregate) : Decidable a.InRange := by unfold InRange; infer_instance

/-- The summary of the readings of both, if the fields can hold it; nothing is
left of it otherwise. -/
def merge (a b : Aggregate) : Except Fault Aggregate :=
  let both := a.join b
  if both.InRange then .ok both else .error .overflow

/-- The summary after one more reading, if the fields can hold it. -/
def add (a : Aggregate) (value : Int) : Except Fault Aggregate := a.merge (single value)

/-- The mean reading. -/
def mean (a : Aggregate) : Except Fault Int := Tenths.mean a.sum a.count

/-- The least, mean and greatest reading with slashes between them. -/
def chars (a : Aggregate) : Except Fault (List Char) := do
  let mean ← a.mean
  return Tenths.chars a.least ++ '/' :: (Tenths.chars mean ++ '/' :: Tenths.chars a.greatest)

end Aggregate

end StationStats
