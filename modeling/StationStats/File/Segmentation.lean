import StationStats.File.Segment
import StationStats.File.Source

/-!
Division of a file into segments that end with a line feed, and a tail that is read last.
Only the bytes around the ends of the raw ranges are read. The state of each operation is
the number of reads made.
-/

namespace StationStats

/-- Segments that follow one another from the start of the file, and the tail behind them. -/
structure Segmentation where
  segments : List Segment
  tail : Segment
  fileLength : Nat
  deriving DecidableEq, Repr

namespace Segmentation

/-- Up to `wanted` bytes from `offset` on, fewer only where the source has no more. -/
def window (source : Source) (offset wanted : Nat) : EStateM ReadError Nat Bytes := fun calls =>
  match source.collect offset wanted calls #[] with
  | .ok _ got => .ok got.bytes got.calls
  | .error error got => .error error got.calls

/-- Position of the first line feed at `position` or behind it. -/
def lineFeedFrom? (source : Source) (fileLength position : Nat) :
    EStateM ReadError Nat (Option Nat) :=
  fun calls =>
    if position < fileLength then
      match window source position searchWindow calls with
      | .error error calls => .error error calls
      | .ok bytes calls =>
        if bytes.size = 0 then .ok none calls
        else
          match bytes.firstLineFeed? with
          | some i => .ok (some (position + i)) calls
          | none => lineFeedFrom? source fileLength (position + bytes.size) calls
    else .ok none calls
termination_by fileLength - position

/-- The error for a file without a row end in the searched bytes before its end. -/
def noLineFeed (first last : Nat) : ReadError :=
  { kind := .invalidData
    message := s!"no line feed in bytes [{first}, {last}) near the end of the file" }

/-- Where the tail starts: behind the last line feed that has `slack` bytes of the file after it.
Only the last `searchWindow` bytes of the file are considered. -/
def tailStart (source : Source) (fileLength : Nat) : EStateM ReadError Nat Nat := fun calls =>
  let last := fileLength - slack
  let first := fileLength - searchWindow
  match window source first (last - first) calls with
  | .error error calls => .error error calls
  | .ok bytes calls =>
    match bytes.lastLineFeed? bytes.size with
    | some i => .ok (first + i + 1) calls
    | none => .error (noLineFeed first last) calls

/-- The segments from `previous` to the start of the tail. Each ends behind the first line feed at
or after the end of a raw range, but not behind the start of the tail, and none is empty. -/
def align (source : Source) (fileLength tail previous : Nat) :
    List Segment → EStateM ReadError Nat (List Segment)
  | [] => fun calls =>
    .ok (if previous < tail then [{ offset := previous, length := tail - previous }] else []) calls
  | raw :: rest => fun calls =>
    match lineFeedFrom? source fileLength raw.stop calls with
    | .error error calls => .error error calls
    | .ok found calls =>
      let stop := match found with
        | some position => min (position + 1) tail
        | none => tail
      if previous < stop then
        match align source fileLength tail stop rest calls with
        | .error error calls => .error error calls
        | .ok segments calls =>
          .ok ({ offset := previous, length := stop - previous } :: segments) calls
      else align source fileLength tail previous rest calls

/-- Divides a file for a number of threads. A short file is all tail. -/
def ofSource (source : Source) (fileLength threads : Nat) : EStateM ReadError Nat Segmentation :=
  fun calls =>
    let raw := Segment.raw fileLength threads
    if raw.isEmpty then
      .ok { segments := [], tail := { offset := 0, length := fileLength }, fileLength } calls
    else
      match tailStart source fileLength calls with
      | .error error calls => .error error calls
      | .ok tail calls =>
        match align source fileLength tail 0 raw.dropLast calls with
        | .error error calls => .error error calls
        | .ok segments calls =>
          .ok { segments, tail := { offset := tail, length := fileLength - tail }, fileLength }
            calls

end Segmentation

end StationStats
