import StationStats.File.Segment
import StationStats.File.Source
import StationStats.Row.Rows

/-!
Adding the rows of a segment that is read piece by piece into a buffer. Each piece is added up to
its last line feed; the partial row behind it moves to the front of the buffer and is completed by
the next read. The last `slack` bytes of the buffer are never filled.
-/

namespace StationStats

/-- What can go wrong while the rows of a segment are read. -/
inductive StreamError where
  | bufferTooSmall (size : Nat)
  | readFailed (offset : Nat) (error : ReadError)
  | unexpectedEnd (offset : Nat) (segment : Segment)
  /-- A row error among the bytes read before an offset of the file. -/
  | inRows (before : Nat) (error : RowError)
  | rowTooLong (row bufferSize : Nat)
  | unterminated (segment : Segment)
  deriving DecidableEq, Repr

/-- The texts of an error, outermost first. -/
def StreamError.messages : StreamError → List String
  | .bufferTooSmall size =>
    [s!"read buffer of {size} bytes leaves no room past the {slack} bytes of slack"]
  | .readFailed offset error => [s!"failed to read at byte {offset}", error.message]
  | .unexpectedEnd offset segment =>
    [s!"unexpected end of file at byte {offset} inside segment {segment.text}"]
  | .inRows before error => [s!"in rows read before byte {before}", error.message]
  | .rowTooLong row size => [s!"row at byte {row} does not fit a {size} byte read buffer"]
  | .unterminated segment => [s!"segment {segment.text} does not end with a line feed"]

namespace Table

variable {hash : KeyHash}

/-- Goes on with a segment from `offset` on. The first `carried` bytes of the buffer hold the part
read so far of the row that `offset` stands in. Returns the number of reads made. -/
def addReadsFrom (source : Source) (segment : Segment) (offset carried calls : Nat)
    (buffer : Bytes) :
    EStateM (Halt StreamError) (Table hash) Nat := fun t =>
  if offset < segment.stop then
    let room := buffer.size - slack
    let wanted := min (segment.stop - offset) (room - carried)
    match source.read calls offset wanted with
    | .error error => .error (.failed (.readFailed offset error)) t
    | .ok bytes =>
      if bytes.size = 0 then .error (.failed (.unexpectedEnd offset segment)) t
      else
        let filled := carried + bytes.size
        let buffer := buffer.overwrite carried bytes.toList
        let whole := buffer.wholeRows filled
        match addRows buffer whole t with
        | .error halt t => .error (halt.map (.inRows (offset + bytes.size))) t
        | .ok _ t =>
          let partialRow := buffer.extract whole filled
          if partialRow.size < room then
            addReadsFrom source segment (offset + bytes.size) partialRow.size (calls + 1)
              (buffer.overwrite 0 partialRow.toList) t
          else
            .error (.failed (.rowTooLong (offset + bytes.size - partialRow.size) buffer.size)) t
  else if carried = 0 then .ok calls t
  else .error (.failed (.unterminated segment)) t
termination_by segment.stop - offset

/-- Adds the rows of a segment through reads into the buffer. Returns the number of reads made. -/
def addReads (source : Source) (segment : Segment) (buffer : Bytes) :
    EStateM (Halt StreamError) (Table hash) Nat := fun t =>
  if slack < buffer.size then addReadsFrom source segment segment.offset 0 0 buffer t
  else .error (.failed (.bufferTooSmall buffer.size)) t

end Table

end StationStats
