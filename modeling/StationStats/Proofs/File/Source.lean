import StationStats.Proofs.Bytes
import StationStats.File.Schedule

/-!
Sources that stand for a content. Whatever such a source delivers is what stands at the offset asked
for; how much it delivers at a time is open. The calls of a full read go through the content in
order: each asks for the bytes that are still missing, at the place behind those that are there.
-/

namespace StationStats

/-- Only listed calls are interfered with. -/
theorem Schedule.mem_of_interference? {call : Nat} {what : Interference}
    {events : List (Nat × Interference)} (h : interference? call events = some what) :
    (call, what) ∈ events := by
  induction events with
  | nil => cases h
  | cons event rest ih =>
      obtain ⟨number, happens⟩ := event
      rw [interference?] at h
      by_cases hCall : number = call
      · rw [if_pos hCall] at h
        cases h
        exact hCall ▸ List.mem_cons_self
      · rw [if_neg hCall] at h
        exact List.mem_cons_of_mem _ (ih h)

namespace Source

/-- Every read that succeeds delivers the bytes of the content at its offset, as many as it
likes. -/
structure Delivers (source : Source) (content : Bytes) : Prop where
  bytes_eq : ∀ {call offset wanted bytes}, source.read call offset wanted = .ok bytes →
    bytes = content.extract offset (offset + bytes.size)

/-- Besides, every read succeeds, and it delivers nothing only if nothing is wanted or left. -/
structure Serves (source : Source) (content : Bytes) : Prop extends Delivers source content where
  answers : ∀ call offset wanted, ∃ bytes, source.read call offset wanted = .ok bytes
  progress : ∀ {call offset wanted bytes}, source.read call offset wanted = .ok bytes → 0 < wanted →
    offset < content.size → 0 < bytes.size

/-- Besides, a read that fails was only interrupted, and a read delivers nothing only if nothing is
wanted or left. How often reads are interrupted is open, but a source is settled in the end. -/
structure Supplies (source : Source) (content : Bytes) : Prop extends Delivers source content where
  interrupted : ∀ {call offset wanted error}, source.read call offset wanted = .error error →
    error.kind = .interrupted
  progress : ∀ {call offset wanted bytes}, source.read call offset wanted = .ok bytes → 0 < wanted →
    offset < content.size → 0 < bytes.size

variable {source : Source} {content : Bytes} {offset wanted first call : Nat} {got : Bytes}

theorem Serves.supplies (h : source.Serves content) : source.Supplies content where
  toDelivers := h.toDelivers
  interrupted {call offset wanted error} hFailed := by
    obtain ⟨bytes, hRead⟩ := h.answers call offset wanted
    cases hFailed.symm.trans hRead
  progress := h.progress

/-- What follows after some calls supplies the same. -/
theorem Supplies.after (h : source.Supplies content) (calls : Nat) :
    (source.after calls).Supplies content where
  bytes_eq hRead := h.bytes_eq hRead
  interrupted hRead := h.interrupted hRead
  progress hRead := h.progress hRead

/-- What a read delivers, as a list. -/
theorem Delivers.toList_eq (h : source.Delivers content) {call offset wanted : Nat} {bytes : Bytes}
    (hRead : source.read call offset wanted = .ok bytes) :
    bytes.toList = (content.toList.drop offset).take bytes.size := by
  conv_lhs => rw [h.bytes_eq hRead]
  rw [Bytes.toList_extract, Nat.add_sub_cancel_left]

/-- What a read delivers lies inside the content. -/
theorem Delivers.size_le (h : source.Delivers content) {call offset wanted : Nat} {bytes : Bytes}
    (hRead : source.read call offset wanted = .ok bytes) (hSome : 0 < bytes.size) :
    offset + bytes.size ≤ content.size := by
  have hLength := congrArg List.length (h.toList_eq hRead)
  simp only [List.length_take, List.length_drop, Array.length_toList] at hLength
  omega

/-- What one read delivers behind the bytes of others continues them. -/
theorem Delivers.append (h : source.Delivers content) {offset wanted call : Nat} {got bytes : Bytes}
    (hGot : got = content.extract offset (offset + got.size))
    (hRead : source.read call (offset + got.size) wanted = .ok bytes) :
    got ++ bytes = content.extract offset (offset + (got ++ bytes).size) := by
  have hBytes := h.bytes_eq hRead
  conv_lhs => rw [hGot, hBytes]
  rw [Array.extract_append_extract, Array.size_append, Nat.min_eq_left (Nat.le_add_right _ _),
    Nat.max_eq_right (Nat.le_add_right _ _), Nat.add_assoc]

/-- The answer to the call for what is missing behind these bytes. -/
def askBehind (source : Source) (offset wanted call : Nat) (got : Bytes) : Except ReadError Bytes :=
  source.read call (offset + got.size) (wanted - got.size)

/-- The calls of a full read from number `first` up to number `call` have delivered these bytes.
Each of them delivered some bytes or was interrupted. -/
inductive Fetched (source : Source) (offset wanted first : Nat) :
    (call : Nat) → (got : Bytes) → Prop where
  | start : Fetched source offset wanted first first #[]
  | delivered {call : Nat} {got bytes : Bytes}
      (before : Fetched source offset wanted first call got)
      (hMore : got.size < wanted) (hRead : source.askBehind offset wanted call got = .ok bytes)
      (hSome : 0 < bytes.size) : Fetched source offset wanted first (call + 1) (got ++ bytes)
  | interrupted {call : Nat} {got : Bytes} {error : ReadError}
      (before : Fetched source offset wanted first call got)
      (hMore : got.size < wanted) (hRead : source.askBehind offset wanted call got = .error error)
      (hKind : error.kind = .interrupted) : Fetched source offset wanted first (call + 1) got

/-! ### What the calls deliver -/

/-- No call delivers more than what is missing. -/
theorem Fetched.size_le (h : Fetched source offset wanted first call got) : got.size ≤ wanted := by
  induction h with
  | start => exact Nat.zero_le wanted
  | @delivered call got bytes _ hMore hRead _ _ =>
      have hBytes := source.size_le hRead
      rw [Array.size_append]
      omega
  | interrupted _ _ _ _ ih => exact ih

/-- The bytes that are there are those of the content, without a gap. -/
theorem Fetched.eq_extract (h : Fetched source offset wanted first call got)
    (hDelivers : source.Delivers content) :
    got = content.extract offset (offset + got.size) := by
  induction h with
  | start =>
      symm
      apply Array.extract_eq_empty_of_le
      exact Nat.min_le_left _ _
  | delivered _ _ hRead _ ih => exact hDelivers.append ih hRead
  | interrupted _ _ _ _ ih => exact ih

/-- They lie inside the content, so that the place behind them is never further than its end. -/
theorem Fetched.add_size_le (h : Fetched source offset wanted first call got)
    (hDelivers : source.Delivers content) (hSome : 0 < got.size) :
    offset + got.size ≤ content.size := by
  have hSize := congrArg Array.size (h.eq_extract hDelivers)
  rw [Array.size_extract] at hSize
  omega

/-- Each call that does not end the reading brings a byte or is one of the interruptions before
the source is settled. -/
theorem Fetched.call_le (h : Fetched source offset wanted first call got) :
    call ≤ first + got.size + (min call source.settled - first) := by
  induction h with
  | start => omega
  | delivered _ _ _ hSome ih =>
      rw [Array.size_append]
      omega
  | interrupted before _ hRead hKind ih =>
      have hOpen := source.call_lt hRead hKind
      omega

/-! ### How the reading ends -/

/-- Reading ends when all bytes are there, when a call delivers nothing, or when a call fails
without having been interrupted. -/
theorem Fetched.collect_cases (h : Fetched source offset wanted first call got) :
    ∃ last all, Fetched source offset wanted first last all ∧
      ((all.size = wanted ∧
        source.collect offset wanted call got = .ok () { bytes := all, calls := last }) ∨
        (all.size < wanted ∧ source.askBehind offset wanted last all = .ok #[] ∧
          source.collect offset wanted call got = .ok () { bytes := all, calls := last + 1 }) ∨
        ∃ error, source.askBehind offset wanted last all = .error error ∧
          error.kind ≠ .interrupted ∧
          source.collect offset wanted call got =
            .error error { bytes := all, calls := last + 1 }) := by
  fun_induction Source.collect source offset wanted call got with
  | case1 call got hMore bytes hRead hNone =>
      rw [Array.eq_empty_of_size_eq_zero hNone] at hRead
      exact ⟨call, got, h, Or.inr (Or.inl ⟨hMore, hRead, rfl⟩)⟩
  | case2 call got hMore bytes hRead hSome ih =>
      exact ih (h.delivered hMore hRead (Nat.pos_of_ne_zero hSome))
  | case3 call got hMore error hRead hKind ih => exact ih (h.interrupted hMore hRead hKind)
  | case4 call got hMore error hRead hKind =>
      exact ⟨call, got, h, Or.inr (Or.inr ⟨error, hRead, hKind, rfl⟩)⟩
  | case5 call got hDone =>
      exact ⟨call, got, h, Or.inl ⟨Nat.le_antisymm h.size_le (Nat.not_lt.mp hDone), rfl⟩⟩

/-! ### Sources that deliver all there is -/

/-- The source delivers nothing only if nothing is wanted or left. -/
def Lasts (source : Source) (content : Bytes) : Prop :=
  ∀ {call offset wanted : Nat}, source.read call offset wanted = .ok #[] → 0 < wanted →
    content.size ≤ offset

theorem Supplies.lasts (h : source.Supplies content) : source.Lasts content := by
  intro call offset wanted hRead hWanted
  by_contra hMore
  exact Nat.lt_irrefl 0 (h.progress hRead hWanted (Nat.not_le.mp hMore))

/-- When all bytes are there there are as many as the content has at most. -/
theorem Fetched.size_eq_min (h : Fetched source offset wanted first call got)
    (hDelivers : source.Delivers content)
    (hEnd : got.size < wanted → content.size ≤ offset + got.size) :
    got.size = min wanted (content.size - offset) := by
  have hSize := h.size_le
  have hInside := h.add_size_le hDelivers
  omega

/-- What several reads have delivered is a part of the content, like what one read delivers. -/
theorem Delivers.collect (h : source.Delivers content) {d : Delivered}
    (hCollected : source.collect offset wanted call #[] = .ok () d) :
    d.bytes = content.extract offset (offset + d.bytes.size) ∧ d.bytes.size ≤ wanted := by
  obtain ⟨last, all, hFetched, hEnds⟩ :=
    (Fetched.start : Fetched source offset wanted call call #[]).collect_cases
  rcases hEnds with ⟨-, hDone⟩ | ⟨-, -, hDone⟩ | ⟨error, -, -, hDone⟩ <;>
    cases hDone.symm.trans hCollected
  · exact ⟨hFetched.eq_extract h, hFetched.size_le⟩
  · exact ⟨hFetched.eq_extract h, hFetched.size_le⟩

/-- Full reads from a source that supplies its content deliver all there is of the bytes that are
wanted, however the reads are cut short or interrupted. -/
theorem Supplies.collect (h : source.Supplies content) (offset wanted call : Nat) :
    ∃ calls, source.collect offset wanted call #[] =
      .ok () { bytes := content.extract offset (offset + wanted), calls } := by
  obtain ⟨last, all, hFetched, hEnds⟩ :=
    (Fetched.start : Fetched source offset wanted call call #[]).collect_cases
  rcases hEnds with ⟨hAll, hDone⟩ | ⟨hMore, hNothing, hDone⟩ | ⟨error, hFailed, hKind, -⟩
  · rw [hFetched.eq_extract h.toDelivers, hAll] at hDone
    exact ⟨last, hDone⟩
  · -- Nothing is left, so more wanted bytes would make no difference.
    have hEnd := h.lasts hNothing (Nat.sub_pos_of_lt hMore)
    have hAll :
        content.extract offset (offset + all.size) = content.extract offset (offset + wanted) := by
      rw [← Array.toList_inj, Bytes.toList_extract, Bytes.toList_extract, List.take_eq_take_iff,
        List.length_drop, Array.length_toList]
      omega
    rw [hFetched.eq_extract h.toDelivers, hAll] at hDone
    exact ⟨last + 1, hDone⟩
  · exact absurd (h.interrupted hFailed) hKind

/-! ### Particular sources -/

/-- A part of the content is as long as it says, also where the content ends early. -/
theorem extract_eq (content : Bytes) (offset stop : Nat) :
    content.extract offset stop =
      content.extract offset (offset + (content.extract offset stop).size) := by
  rw [← Array.toList_inj, Bytes.toList_extract, Bytes.toList_extract, List.take_eq_take_iff,
    List.length_drop, Array.length_toList, Array.size_extract]
  omega

/-- A source that always answers with what it has. -/
theorem serves_ofBytes (content : Bytes) : (ofBytes content).Serves content where
  bytes_eq {call offset wanted bytes} h := by
    cases h
    exact extract_eq content offset (offset + wanted)
  answers call offset wanted := ⟨_, rfl⟩
  progress {call offset wanted bytes} h hWanted hOffset := by
    cases h
    rw [Array.size_extract]
    omega

/-- A source that follows a schedule delivers bytes of its content, whatever it
is interfered with by. -/
theorem delivers_schedule (schedule : Schedule) (content : Bytes) :
    (schedule.source content).Delivers content where
  bytes_eq {call offset wanted bytes} h := by
    simp only [Schedule.source, Schedule.answer] at h
    split at h
    · cases h
      refine (Array.extract_eq_empty_of_le ?_).symm
      exact Nat.min_le_left _ _
    · cases h
    · cases h
      exact extract_eq content offset _

/-- Without interference, and with at least one byte at a time, such a source serves its content. -/
theorem serves_schedule {most : Nat} (h : 0 < most) (content : Bytes) :
    ((Schedule.mk (some most) []).source content).Serves content where
  toDelivers := delivers_schedule _ content
  answers call offset wanted := ⟨_, rfl⟩
  progress {call offset wanted bytes} hRead hWanted hOffset := by
    cases hRead
    simp only [Array.size_extract]
    omega

/-- If all interference is an interruption, and at least one byte is delivered at a time, such a
source supplies its content. -/
theorem supplies_schedule {schedule : Schedule} (hMost : ∀ most ∈ schedule.most, 0 < most)
    (hEvents : ∀ event ∈ schedule.events, event.2 = .failure .interrupted) (content : Bytes) :
    (schedule.source content).Supplies content where
  toDelivers := delivers_schedule schedule content
  interrupted {call offset wanted error} hFailed := by
    simp only [Schedule.source, Schedule.answer] at hFailed
    split at hFailed
    · cases hFailed
    · rename_i kind hCall
      cases hFailed
      have hEvent := hEvents _ (Schedule.mem_of_interference? hCall)
      simpa using hEvent
    · cases hFailed
  progress {call offset wanted bytes} hRead hWanted hOffset := by
    simp only [Schedule.source, Schedule.answer] at hRead
    split at hRead
    · rename_i hCall
      have hEvent := hEvents _ (Schedule.mem_of_interference? hCall)
      cases hEvent
    · cases hRead
    · cases hRead
      rw [Array.size_extract]
      cases hLimit : schedule.most with
      | none =>
          simp only
          omega
      | some most =>
          have := hMost most hLimit
          simp only
          omega

end Source

end StationStats
