/-!
The sizes every stage agrees on. Each is a decision of the format or of the layout; none is derived
from the input.
-/

namespace StationStats

/-- Bytes in a cache line. -/
def cacheLine : Nat := 64

/-- Readable bytes that follow every scanned range of rows. What they hold does not matter. -/
def slack : Nat := cacheLine

/-- A file shorter than this is not split at all. -/
def splitThreshold : Nat := 4 * slack

/-- A segment is not made shorter than this unless the file itself is. -/
def leastSegment : Nat := 32 * 1024 - cacheLine

/-- Bytes searched at a time for the line feed that ends a segment. -/
def searchWindow : Nat := 256

/-- The number of distinct stations a summary has room for. -/
def stationCount : Nat := 10000

/-- The longest station name of a well-formed row, in bytes. -/
def longestName : Nat := 100

/-- Read buffer length when none is asked for. -/
def defaultBuffer : Nat := 128 * 1024

/-- The shortest read buffer accepted. -/
def leastBuffer : Nat := 4 * cacheLine

/-- Bytes in a lane. -/
def laneBytes : Nat := 32

/-- Words in a lane. -/
def laneWords : Nat := laneBytes / 8

/-- Lanes searched for the separator of a row. -/
def keyLanes : Nat := 4

/-- Words a packed name may take. -/
def keyWords : Nat := keyLanes * laneWords

/-- Bytes a packed name may take. -/
def keyBytes : Nat := keyWords * 8

end StationStats
