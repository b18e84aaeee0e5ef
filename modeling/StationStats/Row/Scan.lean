import StationStats.Row.Measurement
import StationStats.Station.Key
import StationStats.Word.Lane

/-!
One row of text: a station name, the separator, a reading and a line feed. The scan looks
for the separator a lane at a time and packs the name on the way. It does not look at the
byte after the reading; that it is a line feed is checked by the caller, who has taken the
reading into account by then.
-/

namespace StationStats

/-- What can be wrong with a row, or with the range of rows around it. Rows are named by the
offset at which they start. -/
inductive RowError where
  /-- Fewer than `slack` bytes follow the rows. -/
  | missingSlack (length spare : Nat)
  | missingSeparator (row : Nat)
  | separatorTooFar (row : Nat)
  | nameTooLong (length row : Nat)
  | malformedMeasurement (row : Nat)
  deriving DecidableEq, Repr

/-- The text of an error. -/
def RowError.message : RowError → String
  | .missingSlack length spare =>
    s!"{length} bytes of rows need {slack} readable bytes after them, have {spare}"
  | .missingSeparator row => s!"missing separator in row at offset {row}"
  | .separatorTooFar row => s!"no separator within {keyLanes * laneBytes} bytes of row offset {row}"
  | .nameTooLong length row =>
    s!"station name of {length} bytes at row offset {row} is longer than {longestName}"
  | .malformedMeasurement row => s!"malformed measurement in row at offset {row}"

/-- The packed name and the reading of a row. -/
structure Row where
  key : Key
  reading : Measurement
  deriving DecidableEq

namespace Row

/-- Bytes of the row up to and with the byte after the reading. -/
def length (row : Row) : Nat := row.key.length + 1 + row.reading.length

/-- The next row starts behind this one. -/
theorem length_pos (row : Row) : 0 < row.length := by
  simp only [length]
  omega

/-- The row with this name, whose reading stands right behind the separator. -/
def withReading (rows : Bytes) (start : Nat) (key : Key) : Except (Halt RowError) Row :=
  match Word.load? rows (start + key.length + 1) with
  | none => .error (.fault .outOfRange)
  | some word =>
    match Measurement.ofWord? word with
    | none => .error (.failed (.malformedMeasurement start))
    | some reading => .ok { key, reading }

/-- Searches the lanes from number `keyLanes - left` on for the separator. `gathered` are the words
of the lanes before it, none of which holds a separator or a line feed. -/
def scanLong (rows : Bytes) (start : Nat) (gathered : List UInt64) :
    Nat → Except (Halt RowError) Row
  | 0 => .error (.failed (.separatorTooFar start))
  | left + 1 =>
    let offset := (keyLanes - (left + 1)) * laneBytes
    match Lane.load? rows (start + offset) with
    | none => .error (.failed (.separatorTooFar start))
    | some lane =>
      match lane.find? separator, lane.find? lineFeed with
      | none, some _ => .error (.failed (.missingSeparator start))
      | none, none => scanLong rows start (gathered ++ lane.words) left
      | some position, feed =>
        if feed.any (· < position) then .error (.failed (.missingSeparator start))
        else
          let length := offset + position
          if longestName < length then .error (.failed (.nameTooLong length start))
          else if rows.size < start + length + 1 + 8 then
            .error (.failed (.malformedMeasurement start))
          else
            let words := (gathered ++ lane.keep position).take (Word.countFor length)
            withReading rows start { words, length }

/-- The row that starts at `start`. -/
def scan (rows : Bytes) (start : Nat) : Except (Halt RowError) Row :=
  match Lane.load? rows start with
  | none => .error (.fault .outOfRange)
  | some lane =>
    match lane.find? separator, lane.find? lineFeed with
    | none, some _ => .error (.failed (.missingSeparator start))
    | none, none => scanLong rows start lane.words (keyLanes - 1)
    | some length, feed =>
      if feed.any (· < length) then .error (.failed (.missingSeparator start))
      else withReading rows start
        { words := (lane.keep length).take (Word.countFor length), length }

end Row

end StationStats
