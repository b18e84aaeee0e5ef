import StationStats.Fault
import StationStats.Word

/-!
Station names packed into words, and the hashes of such words.
-/

namespace StationStats

/-- A name as words, eight bytes each and the last one filled up with zeros, with its length in
bytes. -/
structure Key where
  words : List UInt64
  length : Nat
  deriving DecidableEq

namespace Key

/-- The words of some bytes, eight bytes to a word. -/
def pack : List UInt8 → List UInt64
  | [] => []
  | b :: rest => Word.ofBytes (b :: rest.take 7) :: pack (rest.drop 7)
termination_by bytes => bytes.length
decreasing_by simp only [List.length_drop, List.length_cons]; omega

/-- The key of a name that fits. -/
def ofName (name : List UInt8) : Except Fault Key :=
  if name.length ≤ keyBytes then .ok { words := pack name, length := name.length }
  else .error (.nameTooLong name.length)

theorem length_pack (name : List UInt8) : (pack name).length = Word.countFor name.length := by
  fun_induction pack name with
  | case1 => rfl
  | case2 b rest ih =>
      simp only [List.length_cons, ih, List.length_drop, Word.countFor]
      omega

/-- The bytes of the words, cut to the length of the name. -/
def name (key : Key) : List UInt8 := (key.words.flatMap Word.toBytes).take key.length

end Key

/-- A hash of the words of a key. -/
abbrev KeyHash := List UInt64 → UInt32

namespace KeyHash

/-- One step per word: mix it in, multiply by the prime. -/
def fnvStep (hash word : UInt64) : UInt64 := (hash ^^^ word) * 0x100000001b3

/-- The FNV-1a hash taken a word at a time and folded to its low half. -/
def fnv1a : KeyHash := fun words =>
  let hash := words.foldl fnvStep 0xcbf29ce484222325
  (hash ^^^ (hash >>> 32)).toUInt32

/-- The factors of the low and the high half of the word at index `i`; they
repeat after four words. -/
def factors (i : Nat) : UInt32 × UInt32 :=
  match i % 4 with
  | 0 => (17, 19)
  | 1 => (23, 29)
  | 2 => (31, 37)
  | _ => (41, 43)

/-- The two halves of the word at index `i`, each times its factor, combined. -/
def primeTerm (word : UInt64) (i : Nat) : UInt32 :=
  (word.toUInt32 * (factors i).1) ^^^ ((word >>> 32).toUInt32 * (factors i).2)

/-- The sum of the terms of all words. Cheaper than FNV-1a, with more collisions among similar
names. -/
def primeMultiply : KeyHash := fun words =>
  words.zipIdx.foldl (fun sum (word, i) => sum + primeTerm word i) 0

end KeyHash

end StationStats
