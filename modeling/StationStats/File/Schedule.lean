import StationStats.File.Source

/-!
Sources that follow a schedule: how many bytes a read delivers at most, and what happens instead of
delivering at certain calls.
-/

namespace StationStats

/-- What happens at a call instead of delivering bytes. -/
inductive Interference where
  /-- The read delivers nothing. -/
  | nothing
  /-- The read fails. -/
  | failure (kind : ReadErrorKind)
  deriving DecidableEq, Repr

/-- How a source answers. -/
structure Schedule where
  /-- The most bytes that one read delivers; `none` for no limit. -/
  most : Option Nat
  /-- The calls that are interfered with. -/
  events : List (Nat × Interference)

namespace Schedule

/-- What happens at a call. -/
def interference? (call : Nat) : List (Nat × Interference) → Option Interference
  | [] => none
  | (number, what) :: rest => if number = call then some what else interference? call rest

/-- A number above all calls that are interfered with. -/
def bound : List (Nat × Interference) → Nat
  | [] => 0
  | (number, _) :: rest => max (number + 1) (bound rest)

theorem lt_bound {call : Nat} {what : Interference} :
    ∀ {events : List (Nat × Interference)}, interference? call events = some what →
      call < bound events
  | [], h => by simp [interference?] at h
  | (number, _) :: rest, h => by
    rw [bound]
    by_cases hCall : number = call
    · omega
    · rw [interference?, if_neg hCall] at h
      have := lt_bound h
      omega

/-- The answer of the `call`-th read from `offset` on. -/
def answer (schedule : Schedule) (content : Bytes) (call offset wanted : Nat) :
    Except ReadError Bytes :=
  match interference? call schedule.events with
  | some .nothing => .ok #[]
  | some (.failure kind) => .error { kind, message := s!"fault in call {call}" }
  | none =>
    let delivered := match schedule.most with
      | some most => min most wanted
      | none => wanted
    .ok (content.extract offset (offset + delivered))

/-- The source that serves `content` by a schedule. -/
def source (schedule : Schedule) (content : Bytes) : Source where
  read := schedule.answer content
  settled := bound schedule.events
  size_le {call offset wanted bytes} h := by
    simp only [answer] at h
    split at h
    · cases h; exact Nat.zero_le _
    · cases h
    · cases h
      simp only [Array.size_extract]
      split <;> omega
  call_lt {call offset wanted error} h _ := by
    simp only [answer] at h
    split at h
    · cases h
    · rename_i hCall; exact lt_bound hCall
    · cases h

end Schedule

end StationStats
