import StationStats.Proofs.Row.Failure
import StationStats.Proofs.Row.Reading
import StationStats.Proofs.Row.Refusal

/-!
What adding a text that fails comes to: which message its first line that is no row leads to, and
what is counted of that line. Both are said about the line alone, however its lanes fall.
-/

namespace StationStats

/-! ### The message of a line -/

/-- The message that a line which is no row leads to at its offset: its length, and whether and
where it has a separator, decide. -/
structure Explains (line : List UInt8) (start : Nat) (message : String) : Prop where
  missing : separator ∉ line → line.length ≤ 127 →
    message = s!"missing separator in row at offset {start}"
  tooFar : 128 ≤ line.length → separator ∉ line.take 128 →
    message = s!"no separator within 128 bytes of row offset {start}"
  nameTooLong : ∀ p, line.findIdx? (· == separator) = some p → 101 ≤ p → p ≤ 127 →
    message = s!"station name of {p} bytes at row offset {start} is longer than 100"
  malformed : ∀ p, line.findIdx? (· == separator) = some p → p ≤ 100 →
    message = s!"malformed measurement in row at offset {start}"

/-- The first bytes of a line have a separator if its first one stands there. -/
theorem separator_mem_take_iff {line : List UInt8} {p n : Nat}
    (hFirst : line.findIdx? (· == separator) = some p) :
    separator ∈ line.take n ↔ p < n := by
  obtain ⟨hMatch, hBefore⟩ := findIdx?_beq_eq_some_iff.mp hFirst
  constructor
  · intro hMem
    obtain ⟨j, hAt⟩ := List.mem_iff_getElem?.mp hMem
    have hInside := (List.getElem?_eq_some_iff.mp hAt).1
    rw [List.length_take] at hInside
    rw [List.getElem?_take_of_lt (by omega)] at hAt
    by_contra hBehind
    exact hBefore j (by omega) hAt
  · intro hInside
    rw [← List.getElem?_take_of_lt hInside] at hMatch
    exact List.mem_of_getElem? hMatch

/-- Every line leads to one message. -/
theorem Explains.unique {line : List UInt8} {start : Nat} {message other : String}
    (h : Explains line start message) (hOther : Explains line start other) : message = other := by
  cases hFirst : line.findIdx? (· == separator) with
  | none =>
      have hNone := findIdx?_beq_eq_none_iff.mp hFirst
      rcases Nat.lt_or_ge 127 line.length with hLong | hShort
      · have hTake : separator ∉ line.take 128 := fun hMem => hNone (List.mem_of_mem_take hMem)
        rw [h.tooFar hLong hTake, hOther.tooFar hLong hTake]
      · rw [h.missing hNone hShort, hOther.missing hNone hShort]
  | some p =>
      have hIndex : p < line.length := (List.findIdx?_eq_some_iff_getElem.mp hFirst).1
      rcases Nat.lt_or_ge 100 p with hBehind | hName
      · rcases Nat.lt_or_ge 127 p with hFar | hNear
        · have hTake : separator ∉ line.take 128 := fun hMem => by
            have hInside := (separator_mem_take_iff hFirst).mp hMem
            omega
          rw [h.tooFar (by omega) hTake, hOther.tooFar (by omega) hTake]
        · rw [h.nameTooLong p hFirst hBehind hNear, hOther.nameTooLong p hFirst hBehind hNear]
      · rw [h.malformed p hFirst hName, hOther.malformed p hFirst hName]

/-! ### What is counted of a line -/

/-- The first separator stands early enough for a name, and behind it the line begins with a reading
and goes on with another byte than the line feed. -/
structure Overruns (line : List UInt8) (p : Nat) (tenths : Int) : Prop where
  first : line.findIdx? (· == separator) = some p
  short : p ≤ 100
  reading : ∃ text b rest, IsReading text tenths ∧ line.drop (p + 1) = text ++ b :: rest ∧
    b ≠ lineFeed

/-- No text begins with two readings. -/
theorem IsReading.unique {text other bytes : List UInt8} {tenths others : Int}
    (h : IsReading text tenths) (hOther : IsReading other others) (hText : text <+: bytes)
    (hOtherText : other <+: bytes) :
    text.length = other.length ∧ tenths = others := by
  -- What is read of the bytes with enough behind them does not depend on the text.
  have hLong : 8 ≤ (bytes ++ List.replicate 8 0).length := by simp
  have hRead := Measurement.ofWord?_take_of_begins hLong h (hText.trans (List.prefix_append _ _))
  have hReadOther :=
    Measurement.ofWord?_take_of_begins hLong hOther (hOtherText.trans (List.prefix_append _ _))
  have hSame := Option.some.inj (hRead.symm.trans hReadOther)
  exact ⟨Nat.succ.inj (congrArg Measurement.length hSame), congrArg Measurement.tenths hSame⟩

namespace Overruns

variable {line : List UInt8} {p q : Nat} {tenths others : Int}

theorem unique (h : Overruns line p tenths) (hOther : Overruns line q others) :
    p = q ∧ tenths = others := by
  obtain rfl : p = q := Option.some.inj (h.first.symm.trans hOther.first)
  obtain ⟨text, b, rest, hReading, hText, -⟩ := h.reading
  obtain ⟨other, c, more, hOtherReading, hOtherText, -⟩ := hOther.reading
  exact ⟨rfl, (hReading.unique hOtherReading ⟨_, hText.symm⟩ ⟨_, hOtherText.symm⟩).2⟩

end Overruns

namespace Table

variable {hash : KeyHash} {t : Table hash}

end Table

end StationStats
