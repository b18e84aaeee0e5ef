import StationStats.File.Input
import StationStats.File.Segmentation
import StationStats.Station.Report

/-!
Summarising a file: divide it, make a table of each segment, merge the tables in the order of their
segments, add the tail, and report. What is reported does not say in how many parts this was done;
only errors name the segment that they arose in.
-/

namespace StationStats

/-- How the bytes of a segment reach its table. -/
inductive Strategy where
  /-- From one view of the whole file. -/
  | mapped
  /-- Through reads into buffers of this length. -/
  | reads (bufferSize : Nat)
  deriving DecidableEq, Repr

/-- What can go wrong with a file. -/
inductive RunError where
  | notOpened (path : String) (cause : ReadError)
  | noSize (path : String) (cause : ReadError)
  | notSegmented (path : String) (cause : ReadError)
  | notMapped (path : String) (error : SegmentError)
  | inSource (error : SegmentError)
  | inSegment (segment : Segment) (error : SegmentError)
  | inTail (tail : Segment) (error : RowError)
  | inReport (error : NameError)
  deriving DecidableEq, Repr

/-- The texts of an error, outermost first. -/
def RunError.messages : RunError → List String
  | .notOpened path cause => [s!"couldn't open file {Quoted.encode path}", cause.message]
  | .noSize path cause => [s!"couldn't read metadata of {Quoted.encode path}", cause.message]
  | .notSegmented path cause => [s!"couldn't segment {Quoted.encode path}", cause.message]
  | .notMapped path error => s!"couldn't map {Quoted.encode path}" :: error.messages
  | .inSource error => error.messages
  | .inSegment segment error =>
    s!"failed to aggregate segment {segment.text}" :: error.messages
  | .inTail tail error =>
    [s!"failed to aggregate end of file segment {tail.text}", error.message]
  | .inReport error => error.messages

/-- How the rows of segments and the bytes of a segment are had. -/
structure SegmentAccess (hash : KeyHash) where
  addSegment : Segment → EStateM (Halt SegmentError) (Table hash) Unit
  readSegment : Segment → Except (Halt SegmentError) Bytes

/-- What is had of a file once it has been opened: its length, a handle to read it by, what mapping
it gives, and what opening it anew for a segment gives. -/
structure Opening where
  size : Except ReadError Nat
  handle : Source
  mapping : Except ReadError Bytes
  reopened : Segment → Except ReadError Source

/-- All reads and the mapping serve this content. -/
def Opening.ofContent (content : Bytes) : Opening where
  size := .ok content.size
  handle := .ofBytes content
  mapping := .ok content
  reopened _ := .ok (.ofBytes content)

namespace Summary

variable {hash : KeyHash}

/-- A table of each segment, all of them started from the same empty one. The first segment that
fails decides the error. -/
def segmentTables (access : SegmentAccess hash) (start : Table hash) :
    List Segment → Except (Halt RunError) (List (Table hash))
  | [] => .ok []
  | segment :: rest =>
    match access.addSegment segment start with
    | .error halt _ => .error (halt.map (.inSegment segment))
    | .ok _ t => (segmentTables access start rest).map (t :: ·)

/-- Merges tables into the first one, in order. -/
def mergeInto (t : Table hash) : List (Table hash) → Except Fault (Table hash)
  | [] => .ok t
  | other :: rest =>
    match Table.mergeFrom other t with
    | .error fault _ => .error fault
    | .ok _ t => mergeInto t rest

/-- The table of all segments. -/
def mergeTables (start : Table hash) : List (Table hash) → Except Fault (Table hash)
  | [] => .ok start
  | first :: rest => mergeInto first rest

/-- Adds the tail, which may be empty and need not end in a line feed. -/
def addTail (access : SegmentAccess hash) (tail : Segment) (t : Table hash) :
    Except (Halt RunError) (Table hash) :=
  if tail.length = 0 then .ok t
  else
    match access.readSegment tail with
    | .error halt => .error (halt.map .inSource)
    | .ok bytes =>
      match Table.addCompleted bytes t with
      | .error halt _ => .error (halt.map (.inTail tail))
      | .ok _ t => .ok t

/-- The report on a divided file. -/
def ofSegmentation (access : SegmentAccess hash) (segmentation : Segmentation) :
    Except (Halt RunError) String :=
  match Table.withCapacity stationCount with
  | .error fault => .error (.fault fault)
  | .ok start =>
    match segmentTables access start segmentation.segments with
    | .error halt => .error halt
    | .ok tables =>
      match mergeTables start tables with
      | .error fault => .error (.fault fault)
      | .ok t =>
        match addTail access segmentation.tail t with
        | .error halt => .error halt
        | .ok t =>
          match t.report with
          | .error halt => .error (halt.map .inReport)
          | .ok text => .ok text

/-- Access to the segments of a file of this length. Reads through its handle count on from the
calls that have been made. -/
def access (path : String) (opening : Opening) (size calls : Nat) :
    Strategy → Except (Halt RunError) (SegmentAccess hash)
  | .mapped =>
    match View.ofMapping size opening.mapping with
    | .error error => .error (.failed (.notMapped path error))
    | .ok view => .ok { addSegment := view.addSegment, readSegment := view.readSegment }
  | .reads bufferSize =>
    match OpenFile.ofHandle path (opening.handle.after calls) bufferSize with
    | .error error => .error (.failed (.inSource error))
    | .ok file =>
      .ok
        { addSegment := fun segment => file.addSegment (opening.reopened segment) segment
          readSegment := file.readSegment }

/-- The report on the file at `path`, for a number of threads. `opened` is what opening it gives. -/
def ofOpened (path : String) (opened : Except ReadError Opening) (threads : Nat)
    (strategy : Strategy) : Except (Halt RunError) String :=
  match opened with
  | .error cause => .error (.failed (.notOpened path cause))
  | .ok opening =>
    match opening.size with
    | .error cause => .error (.failed (.noSize path cause))
    | .ok size =>
      match Segmentation.ofSource opening.handle size threads 0 with
      | .error cause _ => .error (.failed (.notSegmented path cause))
      | .ok segmentation calls =>
        match @access KeyHash.fnv1a path opening size calls strategy with
        | .error halt => .error halt
        | .ok access => ofSegmentation access segmentation

/-- The report on a file whose content is served by all reads and by the mapping. `opened` is the
content, or the error that opening the file gives. -/
def ofFile (path : String) (opened : Except ReadError Bytes) (threads : Nat) (strategy : Strategy) :
    Except (Halt RunError) String :=
  ofOpened path (opened.map Opening.ofContent) threads strategy

end Summary

end StationStats
