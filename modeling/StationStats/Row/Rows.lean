import StationStats.Row.Scan
import StationStats.Station.Table

/-!
Adding a range of whole rows to a table, row after row. A row that cannot be scanned stops the run
with all rows before it added.
-/

namespace StationStats

namespace Bytes

/-- The bytes with a line feed at the end if they have none there. No bytes stay no bytes. -/
def completed (bytes : Bytes) : Bytes :=
  match bytes.back? with
  | some last => if last = lineFeed then bytes else bytes.push lineFeed
  | none => bytes

/-- The completed bytes followed by `slack` zeros. -/
def padded (bytes : Bytes) : Bytes := bytes.completed ++ Array.replicate slack (0 : UInt8)

end Bytes

namespace Table

variable {hash : KeyHash}

/-- Adds the rows that start at `start` or later and before `len`. The reading of a row is
added before the byte behind it is checked, so a row that goes on after its reading is
counted and then refused. -/
def addRowsFrom (rows : Bytes) (len start : Nat) :
    EStateM (Halt RowError) (Table hash) Unit := fun t =>
  if start < len then
    match Row.scan rows start with
    | .error halt => .error halt t
    | .ok row =>
      match add row.key row.reading.tenths t with
      | .error fault t => .error (.fault fault) t
      | .ok _ t =>
        if rows[start + row.length - 1]? = some lineFeed then
          addRowsFrom rows len (start + row.length) t
        else .error (.failed (.malformedMeasurement start)) t
  else .ok () t
termination_by len - start
decreasing_by have := row.length_pos; omega

/-- Adds the whole rows among the first `len` bytes. At least `slack` bytes have to follow these;
what they hold does not matter. -/
def addRows (rows : Bytes) (len : Nat) : EStateM (Halt RowError) (Table hash) Unit := fun t =>
  if len + slack ≤ rows.size then addRowsFrom rows len 0 t
  else .error (.failed (.missingSlack len (rows.size - min len rows.size))) t

/-- Adds the rows of some bytes that need neither end in a line feed nor have
anything behind them. -/
def addCompleted (bytes : Bytes) : EStateM (Halt RowError) (Table hash) Unit :=
  addRows bytes.padded bytes.completed.size

end Table

end StationStats
