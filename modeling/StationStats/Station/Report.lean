import StationStats.Station.Table
import StationStats.Text.Utf8

/-!
The report on a table: its stations in ascending byte order of their names, each with its least,
mean and greatest reading, between braces.
-/

namespace StationStats

/-- A station name that is no text. -/
structure NameError where
  name : List UInt8
  cause : Utf8.DecodeError
  deriving DecidableEq, Repr

/-- The texts of an error, outermost first. -/
def NameError.messages (e : NameError) : List String :=
  let bytes := String.intercalate ", " (e.name.map fun b => toString b.toNat)
  [s!"station name [{bytes}] is not valid UTF-8", e.cause.message]

namespace Report

/-- The order of names: byte by byte, a name before its continuations. -/
def nameLe : List UInt8 → List UInt8 → Bool
  | [], _ => true
  | _ :: _, [] => false
  | a :: as, b :: bs => a < b || (a == b && nameLe as bs)

/-- The stations in ascending order of their names. -/
def sorted (stations : List Station) : List Station :=
  stations.mergeSort fun a b => nameLe a.name b.name

/-- One station: its name, an equals sign, and its readings. -/
def entryChars (station : Station) : Except (Halt NameError) (List Char) :=
  match Utf8.decode station.name with
  | .error cause => .error (.failed { name := station.name, cause })
  | .ok name =>
    match station.aggregate.chars with
    | .error fault => .error (.fault fault)
    | .ok readings => .ok (name ++ '=' :: readings)

/-- The entries of several stations. -/
def entries : List Station → Except (Halt NameError) (List (List Char))
  | [] => .ok []
  | station :: rest =>
    match entryChars station with
    | .error halt => .error halt
    | .ok chars => (entries rest).map (chars :: ·)

/-- The characters of the report on some stations, with a line feed at the end. -/
def chars (stations : List Station) : Except (Halt NameError) (List Char) :=
  (entries (sorted stations)).map fun shown =>
    '\x7b' :: (List.intercalate [',', ' '] shown ++ ['\x7d', '\n'])

end Report

/-- The report on a table. -/
def Table.report {hash : KeyHash} (t : Table hash) : Except (Halt NameError) String :=
  (Report.chars t.stations).map String.ofList

end StationStats
