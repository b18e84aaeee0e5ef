import StationStats.Run.Summary

/-!
The command line: reading the arguments from left to right, and what is answered to them.
-/

namespace StationStats

/-- What the arguments ask for, once all of them are read. -/
structure Settings where
  path : String
  /-- `none` leaves the number to the caller. -/
  threads : Option Nat
  strategy : Strategy
  timings : Bool
  deriving DecidableEq, Repr

/-- What a command line asks for. -/
inductive Request where
  | summarise (settings : Settings)
  | version
  | help (long : Bool)
  deriving DecidableEq, Repr

/-- An answer: exit code, and what goes to the two output streams. -/
structure Reply where
  code : Nat
  output : String
  errors : String
  deriving DecidableEq, Repr

namespace CommandLine

/-- What has been given so far. Each option can be given once. -/
structure Given where
  path : Option String
  threads : Option Nat
  /-- Whether the strategy is reads. -/
  reads : Option Bool
  bufferSize : Option Nat
  timings : Bool

/-- Nothing yet. -/
def Given.nothing : Given :=
  { path := none, threads := none, reads := none, bufferSize := none, timings := false }

/-- The options that take a value. -/
inductive ValueOption where
  | threads
  | strategy
  | bufferSize
  deriving DecidableEq

/-- The number that decimal digits stand for. -/
def digitsValue? (value : Nat) : List Char → Option Nat
  | [] => some value
  | c :: rest =>
    if '0' ≤ c ∧ c ≤ '9' then digitsValue? (value * 10 + (c.toNat - 48)) rest else none

/-- A number of at most sixty-four bits in decimal digits, which may follow a plus sign. -/
def number? (text : List Char) : Option Nat :=
  let digits := match text with
    | '+' :: rest => rest
    | _ => text
  if digits.isEmpty then none else (digitsValue? 0 digits).filter (· < UInt64.size)

/-- Takes the value of an option that has not been given before. -/
def Given.set? (given : Given) (value : List Char) : ValueOption → Option Given
  | .threads =>
    if given.threads.isSome then none
    else (number? value).map fun n => { given with threads := some n }
  | .strategy =>
    if given.reads.isSome then none
    else if value = "mmap".toList then some { given with reads := some false }
    else if value = "read".toList then some { given with reads := some true }
    else none
  | .bufferSize =>
    if given.bufferSize.isSome then none
    else (number? value).map fun n => { given with bufferSize := some n }

/-- Takes the path, which can be given once and is not empty. -/
def Given.setPath? (given : Given) (path : String) : Option Given :=
  if given.path.isSome ∨ path.isEmpty then none else some { given with path := some path }

/-- Takes the flag for timings. -/
def Given.setTimings? (given : Given) : Option Given :=
  if given.timings then none else some { given with timings := true }

/-- The settings, with the defaults for what was not given. -/
def Given.settings (given : Given) : Settings :=
  { path := given.path.getD "measurements.txt"
    threads := given.threads
    strategy :=
      if given.reads.getD false then .reads (given.bufferSize.getD defaultBuffer) else .mapped
    timings := given.timings }

/-- What one argument leads to. -/
inductive Step where
  | go (given : Given)
  /-- The next argument is the value of an option. -/
  | value (option : ValueOption) (given : Given)
  | stop (request : Request)
  | refuse

/-- A step that goes on if there is something to go on with. -/
def Step.ofGiven : Option Given → Step
  | some given => .go given
  | none => .refuse

/-- An argument that starts with two dashes; the characters are those behind them. -/
def longStep (given : Given) (body : List Char) : Step :=
  let name := body.takeWhile (· ≠ '=')
  let attached := match body.dropWhile (· ≠ '=') with
    | [] => none
    | _ :: value => some value
  let valued (option : ValueOption) : Step :=
    match attached with
    | some value => .ofGiven (given.set? value option)
    | none => .value option given
  if name = "threads".toList then valued .threads
  else if name = "strategy".toList then valued .strategy
  else if name = "buffer-size".toList then valued .bufferSize
  else if attached.isSome then .refuse
  else if name = "timings".toList then .ofGiven given.setTimings?
  else if name = "version".toList then .stop .version
  else if name = "help".toList then .stop (.help true)
  else .refuse

/-- An argument that starts with one dash; the characters are those behind it. The first option with
a value takes what follows it, without an equals sign in front. -/
def shortStep (given : Given) : List Char → Step
  | 't' :: rest => shortValue .threads rest
  | 's' :: rest => shortValue .strategy rest
  | 'V' :: _ => .stop .version
  | 'h' :: _ => .stop (.help false)
  | _ => .refuse
where
  shortValue (option : ValueOption) : List Char → Step
    | [] => .value option given
    | '=' :: value => .ofGiven (given.set? value option)
    | value => .ofGiven (given.set? value option)

/-- An argument starts like an option. A dash alone does not. -/
def startsOption (arg : String) : Bool :=
  match arg.toList with
  | '-' :: _ :: _ => true
  | _ => false

/-- What one argument that is no value of an option leads to. -/
def step (given : Given) (arg : String) : Step :=
  match arg.toList with
  | '-' :: '-' :: body => longStep given body
  | '-' :: c :: rest => shortStep given (c :: rest)
  | _ => .ofGiven (given.setPath? arg)

/-- Reads paths only. -/
def readPaths (given : Given) : List String → Option Request
  | [] => some (.summarise given.settings)
  | path :: rest =>
    match given.setPath? path with
    | some given => readPaths given rest
    | none => none

/-- Reads arguments from left to right. `none` means that they are refused. Behind two dashes alone
there are only paths. -/
def readFrom (given : Given) : List String → Option Request
  | [] => some (.summarise given.settings)
  | "--" :: rest => readPaths given rest
  | arg :: rest =>
    match step given arg with
    | .go given => readFrom given rest
    | .stop request => some request
    | .refuse => none
    | .value option given =>
      match rest with
      | [] => none
      | value :: rest =>
        if startsOption value then none
        else
          match given.set? value.toList option with
          | some given => readFrom given rest
          | none => none

/-- What the arguments ask for; `none` if they are refused. -/
def read (args : List String) : Option Request := readFrom .nothing args

/-- The text of an error with its causes, which are numbered if there are several. -/
def errorText : List String → String
  | [] => "Error: \n"
  | [outermost] => s!"Error: {outermost}\n"
  | [outermost, cause] => s!"Error: {outermost}\n\nCaused by:\n    {cause}\n"
  | outermost :: causes =>
    let lines := causes.zipIdx.map fun (cause, i) => s!"    {i}: {cause}\n"
    s!"Error: {outermost}\n\nCaused by:\n{String.join lines}"

/-- The version line. -/
def versionText : String := "one-brc 0.1.0\n"

/-- The summary of options. -/
def shortHelp : String :=
  String.intercalate "\n"
    ["Min/mean/max temperature per station", "", "Usage: one-brc [OPTIONS] [PATH]", "",
      "Arguments:", "  [PATH]  [default: measurements.txt]", "", "Options:",
      "  -t, --threads <THREADS>          Worker threads [default: available parallelism]",
      "  -s, --strategy <STRATEGY>        [default: mmap] [possible values: mmap, read]",
      "      --buffer-size <BUFFER_SIZE>  Read buffer bytes for --strategy read [default: 131072]",
      "      --timings                    Print the time spent in each stage to stderr",
      "  -h, --help                       Print help (see more with '--help')",
      "  -V, --version                    Print version", ""]

/-- The description of options. -/
def longHelp : String :=
  String.intercalate "\n"
    ["Min/mean/max temperature per station", "", "Usage: one-brc [OPTIONS] [PATH]", "",
      "Arguments:", "  [PATH]", "          [default: measurements.txt]", "", "Options:",
      "  -t, --threads <THREADS>", "          Worker threads [default: available parallelism]", "",
      "  -s, --strategy <STRATEGY>", "          Possible values:",
      "          - mmap: Memory map the file",
      "          - read: Positioned reads into a per-thread buffer", "          ",
      "          [default: mmap]", "", "      --buffer-size <BUFFER_SIZE>",
      "          Read buffer bytes for --strategy read", "          ",
      "          [default: 131072]", "", "      --timings",
      "          Print the time spent in each stage to stderr", "", "  -h, --help",
      "          Print help (see a summary with '-h')", "", "  -V, --version",
      "          Print version", ""]

/-- The answer to settings, given what opening the path of the file gives. -/
def summarise (parallelism : Nat) (settings : Settings) (opened : Except ReadError Bytes) : Reply :=
  let threads := settings.threads.getD parallelism
  if threads = 0 then
    { code := 1, output := "", errors := errorText ["expected at least one thread"] }
  else
    match Summary.ofFile settings.path opened threads settings.strategy with
    | .ok text => { code := 0, output := text, errors := "" }
    | .error (.failed error) => { code := 1, output := "", errors := errorText error.messages }
    | .error (.fault fault) =>
      { code := 101, output := "", errors := (fault.message?.getD "broken assumption") ++ "\n" }

/-- The answer to arguments. `files` says what opening a path gives. -/
def answer (parallelism : Nat) (files : String → Except ReadError Bytes) (args : List String) :
    Reply :=
  match read args with
  | none => { code := 2, output := "", errors := "error: arguments refused, see '--help'\n" }
  | some .version => { code := 0, output := versionText, errors := "" }
  | some (.help true) => { code := 0, output := longHelp, errors := "" }
  | some (.help false) => { code := 0, output := shortHelp, errors := "" }
  | some (.summarise settings) => summarise parallelism settings (files settings.path)

end CommandLine

end StationStats
