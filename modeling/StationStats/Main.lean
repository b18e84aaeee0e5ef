import StationStats.Run.CommandLine
import StationStats.Run.Timings

/-!
The program: it reads the file that its arguments name, prints the answer, and tells how
long this took if it is asked to. Segments are summarised one after the other, so one
thread is what it starts from.
-/

namespace StationStats

/-- A system error as a read error. -/
def ReadError.ofSystem : IO.Error → ReadError
  | .noFileOrDirectory _ _ _ =>
    { kind := .notFound, message := "No such file or directory (os error 2)" }
  | .permissionDenied _ _ _ =>
    { kind := .permissionDenied, message := "Permission denied (os error 13)" }
  | error => { kind := .other, message := toString error }

/-- What opening the file of a request gives; nothing is opened for a request that names none. -/
def openRequested : Option Request → IO (Except ReadError Bytes)
  | some (.summarise settings) => do
    match ← (IO.FS.readBinFile settings.path).toBaseIO with
    | .ok content => return .ok content.data
    | .error error => return .error (.ofSystem error)
  | _ => return .ok #[]

/-- The span between two readings of the clock, in nanoseconds. -/
def Duration.between (first second : Nat) : Duration :=
  { seconds := (second - first) / 1000000000, nanoseconds := (second - first) % 1000000000 }

/-- The times of a run whose file took until `opened` to read. All that is pure counts as
parsing. -/
def timingsOf (started opened finished : Nat) : Timings :=
  let idle := Duration.between 0 0
  { opening := .between started opened
    segmenting := idle
    setUp := idle
    parsing := .between opened finished
    merging := idle
    tail := idle
    formatting := idle }

/-- Answers the arguments and returns the exit code. -/
def runProgram (args : List String) : IO UInt32 := do
  let request := CommandLine.read args
  let started ← IO.monoNanosNow
  let content ← openRequested request
  let opened ← IO.monoNanosNow
  let reply := CommandLine.answer 1 (fun _ => content) args
  let stdout ← IO.getStdout
  stdout.putStr reply.output
  stdout.flush
  IO.eprint reply.errors
  let finished ← IO.monoNanosNow
  if let some (.summarise settings) := request then
    if settings.timings ∧ reply.code = 0 then
      if let .ok text := (timingsOf started opened finished).text then
        IO.eprintln text
        let shown := Decimal.fixed 3 (Duration.between started finished).milliseconds
        IO.eprintln s!"in main {shown} ms"
  return reply.code.toUInt32

end StationStats

/-- The program itself. -/
def main (args : List String) : IO UInt32 := StationStats.runProgram args
