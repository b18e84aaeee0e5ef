import StationStats.Proofs.File.Source

/-!
Full reads into a buffer. Short reads and interruptions may come in any order: what the calls have
delivered stands at the front of the buffer, also when an error ends the reading. There are no more
calls than bytes wanted and interruptions to come, and one that ends the reading.
-/

namespace StationStats.Source

variable {source : Source} {content : Bytes} {offset first call : Nat} {got : Bytes}

/-- The first bytes of a buffer have been replaced by so many bytes of the content from an offset
on, and the bytes behind them are those that were there. -/
structure FrontFilled (content : Bytes) (offset n : Nat) (buffer filled : Bytes) : Prop where
  size_eq : filled.size = buffer.size
  le_size : n ≤ buffer.size
  inside : 0 < n → offset + n ≤ content.size
  front : filled.extract 0 n = content.extract offset (offset + n)
  behind : ∀ i, n ≤ i → filled[i]? = buffer[i]?

theorem Fetched.frontFilled {buffer : Bytes} (h : Fetched source offset buffer.size first call got)
    (hDelivers : source.Delivers content) :
    FrontFilled content offset got.size buffer (buffer.overwrite 0 got.toList) where
  size_eq := Bytes.size_overwrite _ _ _
  le_size := h.size_le
  inside := h.add_size_le hDelivers
  front := by
    have hRoom : 0 + got.toList.length ≤ buffer.size := by
      rw [Nat.zero_add, Array.length_toList]
      exact h.size_le
    have hTake := Bytes.take_overwrite hRoom
    rw [Nat.zero_add, List.take_zero, List.nil_append, Array.length_toList] at hTake
    rw [← h.eq_extract hDelivers, ← Array.toList_inj, Bytes.toList_extract, List.drop_zero,
      Nat.sub_zero, hTake]
  behind i hi := by
    apply Bytes.getElem?_overwrite_of_le
    rw [Nat.zero_add, Array.length_toList]
    exact hi

/-- A full read ends after a bounded number of calls, each of which asked for what was missing
behind what was there, and the bytes delivered stand at the front of the buffer. If it succeeds, the
buffer is full or the last call delivered nothing, which a source that lasts does at the end of the
content alone. If it fails, then with the error of the last call, which was not interrupted. -/
theorem Delivers.readFull_fills_front (h : source.Delivers content) (offset first : Nat)
    (buffer : Bytes) :
    ∃ last all filled calls, Fetched source offset buffer.size first last all ∧
      FrontFilled content offset all.size buffer filled ∧
      calls ≤ first + buffer.size + (source.settled - first) + 1 ∧
      ((source.readFull offset first buffer = .ok () (filled, { bytes := all, calls }) ∧
          ((all.size = buffer.size ∧ calls = last) ∨
            (all.size < buffer.size ∧ source.askBehind offset buffer.size last all = .ok #[] ∧
              calls = last + 1)) ∧
          (source.Lasts content → all.size = min buffer.size (content.size - offset))) ∨
        ∃ error, source.readFull offset first buffer =
          .error error (filled, { bytes := all, calls }) ∧
          source.askBehind offset buffer.size last all = .error error ∧ error.kind ≠ .interrupted ∧
            calls = last + 1) := by
  obtain ⟨last, all, hFetched, hEnds⟩ :=
    (Fetched.start : Fetched source offset buffer.size first first #[]).collect_cases
  have hFilled := hFetched.frontFilled h
  have hSize := hFetched.size_le
  have hCalls := hFetched.call_le
  rcases hEnds with ⟨hAll, hDone⟩ | ⟨hMore, hNothing, hDone⟩ | ⟨error, hFailed, hKind, hDone⟩
  · refine ⟨last, all, _, last, hFetched, hFilled, by omega,
      Or.inl ⟨?_, Or.inl ⟨hAll, rfl⟩, fun _ => ?_⟩⟩
    · simp only [readFull, hDone]
    · exact hFetched.size_eq_min h fun hMore => absurd hAll (Nat.ne_of_lt hMore)
  · refine ⟨last, all, _, last + 1, hFetched, hFilled, by omega,
      Or.inl ⟨?_, Or.inr ⟨hMore, hNothing, rfl⟩, fun hLasts => ?_⟩⟩
    · simp only [readFull, hDone]
    · exact hFetched.size_eq_min h fun _ => hLasts hNothing (Nat.sub_pos_of_lt hMore)
  · refine ⟨last, all, _, last + 1, hFetched, hFilled, by omega,
      Or.inr ⟨error, ?_, hFailed, hKind, rfl⟩⟩
    simp only [readFull, hDone]

/-- Eight places for the seven bytes behind the first one, three bytes at a time, with an
interruption in between. -/
theorem readFull_fills_front_of_eight :
    ∃ filled all calls,
      ((Schedule.mk (some 3) [(1, .failure .interrupted)]).source #[97, 98, 99, 100, 101, 102, 103,
        104]).readFull 1 0 (Array.replicate 8 46) = .ok () (filled, { bytes := all, calls }) ∧
      filled.extract 0 7 = #[98, 99, 100, 101, 102, 103, 104] ∧ filled[7]? = some 46 ∧
        calls ≤ 11 := by
  have hDelivers := delivers_schedule (Schedule.mk (some 3) [(1, .failure .interrupted)])
    #[97, 98, 99, 100, 101, 102, 103, 104]
  have hSupplies : ((Schedule.mk (some 3) [(1, .failure .interrupted)]).source
      #[97, 98, 99, 100, 101, 102, 103, 104]).Supplies #[97, 98, 99, 100, 101, 102, 103, 104] :=
    supplies_schedule (by decide) (by decide) _
  obtain ⟨last, all, filled, calls, -, hFilled, hCalls, hEnds⟩ :=
    hDelivers.readFull_fills_front 1 0 (Array.replicate 8 46)
  rcases hEnds with ⟨hRead, -, hAll⟩ | ⟨error, -, hFailed, hKind, -⟩
  · have hSeven : all.size = 7 := hAll hSupplies.lasts
    rw [hSeven] at hFilled
    refine ⟨filled, all, calls, hRead, hFilled.front, ?_, hCalls⟩
    rw [hFilled.behind 7 (Nat.le_refl 7)]
    rfl
  · exact absurd (hSupplies.interrupted hFailed) hKind

end StationStats.Source
