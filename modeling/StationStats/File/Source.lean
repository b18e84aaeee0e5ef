import StationStats.Bytes

/-!
Sources of bytes that are read by offset. A read may deliver fewer bytes than asked for, and it may
fail; which of this happens can depend on how many reads came before. Full reads repeat reads until
they have all bytes or the source has no more.
-/

namespace StationStats

/-- Kinds of read errors. -/
inductive ReadErrorKind where
  | interrupted
  | permissionDenied
  | invalidData
  | notFound
  | other
  deriving DecidableEq, Repr

/-- A failed read. -/
structure ReadError where
  kind : ReadErrorKind
  message : String
  deriving DecidableEq, Repr

/-- Something that is read by offset. The `call`-th read from `offset` on of at most `wanted` bytes
is answered by `read`. From call number `settled` on no read is interrupted, so repeating an
interrupted read succeeds or fails in the end. -/
structure Source where
  read : (call offset wanted : Nat) → Except ReadError Bytes
  settled : Nat
  size_le : ∀ {call offset wanted bytes}, read call offset wanted = .ok bytes → bytes.size ≤ wanted
  call_lt : ∀ {call offset wanted error}, read call offset wanted = .error error →
    error.kind = .interrupted → call < settled

/-- What several reads have delivered: the bytes, and the number of calls made by then. -/
structure Delivered where
  bytes : Bytes
  calls : Nat

namespace Source

/-- The source that always answers with the bytes it has. -/
def ofBytes (content : Bytes) : Source where
  read _ offset wanted := .ok (content.extract offset (offset + wanted))
  settled := 0
  size_le h := by
    cases h
    simp only [Array.size_extract]
    omega
  call_lt h := by cases h

/-- What answers once so many calls have been made. -/
def after (source : Source) (calls : Nat) : Source where
  read call := source.read (calls + call)
  settled := source.settled
  size_le h := source.size_le h
  call_lt h hKind := by
    have := source.call_lt h hKind
    omega

/-- Goes on reading behind the bytes `got`, which were read from `offset` on, until `wanted`
bytes are there or a read delivers none. Interrupted reads are repeated. An error comes with the
bytes delivered before it. -/
def collect (source : Source) (offset wanted call : Nat) (got : Bytes) :
    EStateM.Result ReadError Delivered Unit :=
  if got.size < wanted then
    match _h : source.read call (offset + got.size) (wanted - got.size) with
    | .ok bytes =>
      if bytes.size = 0 then .ok () { bytes := got, calls := call + 1 }
      else collect source offset wanted (call + 1) (got ++ bytes)
    | .error error =>
      if error.kind = .interrupted then collect source offset wanted (call + 1) got
      else .error error { bytes := got, calls := call + 1 }
  else .ok () { bytes := got, calls := call }
termination_by (wanted - got.size, source.settled - call)
decreasing_by
  · apply Prod.Lex.left
    simp only [Array.size_append]
    omega
  · rename_i hKind
    apply Prod.Lex.right
    have := source.call_lt _h hKind
    omega

/-- Reads from `offset` on until the buffer is full or a read delivers nothing. The bytes delivered
overwrite the front of the buffer, also when an error ends the reading. -/
def readFull (source : Source) (offset call : Nat) (buffer : Bytes) :
    EStateM.Result ReadError (Bytes × Delivered) Unit :=
  match source.collect offset buffer.size call #[] with
  | .ok _ got => .ok () (buffer.overwrite 0 got.bytes.toList, got)
  | .error error got => .error error (buffer.overwrite 0 got.bytes.toList, got)

end Source

end StationStats
