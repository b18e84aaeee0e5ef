import StationStats.File.Stream
import StationStats.Text.Quoted

/-!
The two ways in which the bytes of a segment reach a table: as a part of one view of the whole file,
or through reads into a buffer of the segment's own, from the file opened anew.
-/

namespace StationStats

/-- What can go wrong with a segment. -/
inductive SegmentError where
  | notMapped (cause : ReadError)
  | bufferTooSmall (size : Nat)
  /-- The segment does not lie in a view of `size` bytes. -/
  | outside (segment : Segment) (size : Nat)
  | inRows (error : RowError)
  | inStream (error : StreamError)
  | notOpened (path : String) (cause : ReadError)
  | readFailed (segment : Segment) (path : String) (cause : ReadError)
  /-- The file ended after `read` bytes of the segment. -/
  | ended (path : String) (read : Nat) (segment : Segment)
  deriving DecidableEq, Repr

/-- The texts of an error, outermost first. -/
def SegmentError.messages : SegmentError → List String
  | .notMapped cause => ["failed to memory map file", cause.message]
  | .bufferTooSmall size =>
    [s!"read buffer size {size} is below the minimum of {leastBuffer}"]
  | .outside segment size => [s!"segment {segment.text} lies outside the {size} byte mapping"]
  | .inRows error => [error.message]
  | .inStream error => error.messages
  | .notOpened path cause => [s!"couldn't open file {Quoted.encode path}", cause.message]
  | .readFailed segment path cause =>
    [s!"failed to read segment {segment.text} of {Quoted.encode path}", cause.message]
  | .ended path read segment =>
    [s!"file {Quoted.encode path} ended after {read} of the {segment.length} bytes of segment {segment.text}"]

/-- A view of all bytes of a file. -/
structure View where
  bytes : Bytes

namespace View

variable {hash : KeyHash}

/-- The view of a file of the given length, from what mapping it gives. An
empty file is not mapped. -/
def ofMapping (fileLength : Nat) (mapping : Except ReadError Bytes) : Except SegmentError View :=
  if fileLength = 0 then .ok { bytes := #[] }
  else
    match mapping with
    | .ok bytes => .ok { bytes }
    | .error cause => .error (.notMapped cause)

/-- Adds the rows of a segment. They are scanned in place if enough bytes follow them, and otherwise
from a padded copy, which also completes the last row. -/
def addSegment (view : View) (segment : Segment) :
    EStateM (Halt SegmentError) (Table hash) Unit := fun t =>
  let size := view.bytes.size
  if size < segment.stop then .error (.failed (.outside segment size)) t
  else
    let added :=
      if segment.stop + slack ≤ size then
        Table.addRows (view.bytes.extract segment.offset (segment.stop + slack)) segment.length t
      else Table.addCompleted (view.bytes.extract segment.offset segment.stop) t
    match added with
    | .ok _ t => .ok () t
    | .error halt t => .error (halt.map .inRows) t

/-- The bytes of a segment. -/
def readSegment (view : View) (segment : Segment) : Except (Halt SegmentError) Bytes :=
  if segment.stop ≤ view.bytes.size then .ok (view.bytes.extract segment.offset segment.stop)
  else .error (.failed (.outside segment view.bytes.size))

end View

/-- The largest length of a buffer that memory can hold. -/
def longestBuffer : Nat := UInt64.size / 2 - 1

/-- A file that is read by offset: its path, a handle on it, and the length of read buffers. -/
structure OpenFile where
  path : String
  handle : Source
  bufferSize : Nat

namespace OpenFile

variable {hash : KeyHash}

/-- An open file with read buffers of an acceptable length. -/
def ofHandle (path : String) (handle : Source) (bufferSize : Nat) : Except SegmentError OpenFile :=
  if leastBuffer ≤ bufferSize then .ok { path, handle, bufferSize }
  else .error (.bufferTooSmall bufferSize)

/-- The buffer for a segment: no longer than the segment needs, and not too short. -/
def bufferFor (file : OpenFile) (segment : Segment) : Nat :=
  max (min file.bufferSize (segment.length + slack)) leastBuffer

/-- Adds the rows of a segment, read from what opening the path anew gives. -/
def addSegment (file : OpenFile) (reopened : Except ReadError Source) (segment : Segment) :
    EStateM (Halt SegmentError) (Table hash) Unit := fun t =>
  match reopened with
  | .error cause => .error (.failed (.notOpened file.path cause)) t
  | .ok source =>
    if longestBuffer < file.bufferFor segment then .error (.fault .overflow) t
    else
      match Table.addReads source segment (Array.replicate (file.bufferFor segment) 0) t with
      | .ok _ t => .ok () t
      | .error halt t => .error (halt.map .inStream) t

/-- The bytes of a segment, read through the handle. -/
def readSegment (file : OpenFile) (segment : Segment) : Except (Halt SegmentError) Bytes :=
  if longestBuffer < segment.length then .error (.fault .overflow)
  else
    match file.handle.collect segment.offset segment.length 0 #[] with
    | .error cause _ => .error (.failed (.readFailed segment file.path cause))
    | .ok _ got =>
      if got.bytes.size = segment.length then .ok got.bytes
      else .error (.failed (.ended file.path got.bytes.size segment))

end OpenFile

end StationStats
