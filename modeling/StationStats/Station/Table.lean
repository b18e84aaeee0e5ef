import StationStats.Station.Aggregate
import StationStats.Station.Key
import StationStats.Station.TableSize

/-!
The table from station name to aggregate. Entries stand in the order in which their stations
first came. Each slot holds the entry last put into it, and each entry links to the one that was
in its slot before, so the entries of a slot form a chain that leads to ever earlier entries. The
words of all names stand in one array. Neither array outgrows the size chosen at the start: a
further station is a fault.
-/

namespace StationStats

/-- One station of a table. -/
structure Entry where
  aggregate : Aggregate
  /-- The entry that was in the slot before this one. -/
  earlier : UInt32
  /-- The hash of the words of the name. -/
  hash : UInt32
  /-- Bytes of the name. -/
  length : Nat
  /-- Where the words of the name start, as a number of thirty-two bits. -/
  keyStart : UInt32

/-- The link that leads to no entry. -/
def noEntry : UInt32 := 0xFFFFFFFF

/-- A table whose keys are placed by `hash`. -/
structure Table (hash : KeyHash) where
  size : TableSize
  heads : Array UInt32
  entries : Array Entry
  keys : Array UInt64

/-- A station of a listing. -/
structure Station where
  name : List UInt8
  aggregate : Aggregate
  deriving DecidableEq

namespace Table

variable {hash : KeyHash}

/-- The table of the given size without entries. -/
def ofSize (size : TableSize) : Table hash :=
  { size
    heads := Array.replicate size.slots.toNat noEntry
    entries := #[]
    keys := #[] }

/-- An empty table with room for at least `wanted` stations. -/
def withCapacity (wanted : Nat) : Except Fault (Table hash) :=
  match TableSize.atLeast wanted with
  | .ok size => .ok (ofSize size)
  | .error fault => .error fault

/-- The number of stations there is room for. -/
def capacity (t : Table hash) : Nat := t.size.slots.toNat

/-- The number of stations. -/
def length (t : Table hash) : Nat := t.entries.size

/-- The packed name of an entry. -/
def key (t : Table hash) (entry : Entry) : Key :=
  let start := entry.keyStart.toNat
  { words := (t.keys.extract start (start + Word.countFor entry.length)).toList
    length := entry.length }

/-- The entry last put into the slot of a hash. -/
def head (t : Table hash) (h : UInt32) : UInt32 := t.heads[(t.size.slot h).toNat]?.getD noEntry

/-- The chain from `link` on: the indices of the entries that it leads to, latest first. A link that
does not lead to an earlier entry ends the chain. -/
def chain (entries : Array Entry) (link : UInt32) : List Nat :=
  if link = noEntry then []
  else match entries[link.toNat]? with
    | none => []
    | some entry =>
      link.toNat :: if entry.earlier < link then chain entries entry.earlier else []
termination_by link.toNat

/-- The first entry of the chain from `link` on that passes the test. -/
def findFrom? (entries : Array Entry) (test : Entry → Bool) (link : UInt32) : Option Nat :=
  if link = noEntry then none
  else match entries[link.toNat]? with
    | none => none
    | some entry =>
      if test entry then some link.toNat
      else if entry.earlier < link then findFrom? entries test entry.earlier else none
termination_by link.toNat

/-- The entry of a key whose hash is `h`. -/
def find? (t : Table hash) (key : Key) (h : UInt32) : Option Nat :=
  findFrom? t.entries
    (fun entry => entry.hash == h && entry.length == key.length && (t.key entry).words == key.words)
    (t.head h)

/-- Adds the readings behind an aggregate to those of the entry at index `i`. A sum or a count past
the end of its field is a fault, and the table that comes with it is the one before: a sum that is
written ahead of the count that overflows is not kept. -/
def update (i : Nat) (a : Aggregate) : EStateM Fault (Table hash) Unit := fun t =>
  match t.entries[i]? with
  | none => .error .outOfRange t
  | some entry =>
    match entry.aggregate.merge a with
    | .error fault => .error fault t
    | .ok both =>
        .ok () { t with entries := t.entries.setIfInBounds i { entry with aggregate := both } }

/-- Puts a new station in front of the chain of its slot, if there is room. -/
def insert (key : Key) (h : UInt32) (a : Aggregate) : EStateM Fault (Table hash) Unit := fun t =>
  if t.entries.size < t.capacity then
    let entry : Entry :=
      { aggregate := a
        earlier := t.head h
        hash := h
        length := key.length
        keyStart := t.keys.size.toUInt32 }
    .ok () { t with
      heads := t.heads.setIfInBounds (t.size.slot h).toNat t.entries.size.toUInt32
      entries := t.entries.push entry
      keys := t.keys ++ key.words }
  else .error (.tableFull t.capacity) t

/-- Adds the readings behind an aggregate to those of a station whose key has the hash `h`. -/
def absorb (key : Key) (h : UInt32) (a : Aggregate) : EStateM Fault (Table hash) Unit := fun t =>
  match t.find? key h with
  | some i => update i a t
  | none => insert key h a t

/-- Adds one reading of a station. A refused station leaves the table as it was. -/
def add (key : Key) (value : Int) : EStateM Fault (Table hash) Unit :=
  absorb key (hash key.words) (Aggregate.single value)

/-- Adds the readings behind some entries of `other`, in order, reusing their hashes. -/
def absorbAll (other : Table hash) : List Entry → EStateM Fault (Table hash) Unit
  | [] => fun t => .ok () t
  | entry :: rest => fun t =>
    match absorb (other.key entry) entry.hash entry.aggregate t with
    | .error fault t => .error fault t
    | .ok _ t => absorbAll other rest t

/-- Adds all readings behind `other`. Stops at the first entry that finds no room; the entries
before it have been added. -/
def mergeFrom (other : Table hash) : EStateM Fault (Table hash) Unit :=
  absorbAll other other.entries.toList

/-- The aggregate of a station. -/
def get? (t : Table hash) (name : List UInt8) : Option Aggregate :=
  match Key.ofName name with
  | .error _ => none
  | .ok key => (t.find? key (hash key.words)).bind fun i => t.entries[i]?.map (·.aggregate)

/-- All stations in the order in which they first came. -/
def stations (t : Table hash) : List Station :=
  t.entries.toList.map fun entry => { name := (t.key entry).name, aggregate := entry.aggregate }

theorem length_stations (t : Table hash) : t.stations.length = t.length := by
  simp [stations, length]

theorem stations_ofSize (size : TableSize) : (ofSize size : Table hash).stations = [] := by
  simp [stations, ofSize]

/-- Length of the longest chain. -/
def longestChain (t : Table hash) : Nat :=
  t.heads.foldl (fun longest link => max longest (chain t.entries link).length) 0

end Table

end StationStats
