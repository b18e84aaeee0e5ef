import StationStats.Proofs.Station.Key
import StationStats.Word.Lane

/-!
A lane is known by the thirty-two bytes it holds. Where enough bytes are left it is loaded, and it
is searched and cut like these bytes.
-/

namespace StationStats.Lane

open Word

/-- The lane holds these bytes, the first of them lowest in its first word. -/
structure Holds (lane : Lane) (text : List UInt8) : Prop where
  length : text.length = laneBytes
  words : lane.words = Key.pack text

/-- The lane of thirty-two bytes. -/
def ofText (text : List UInt8) : Lane :=
  { first := ofBytes (text.take 8)
    second := ofBytes ((text.drop 8).take 8)
    third := ofBytes ((text.drop 16).take 8)
    fourth := ofBytes ((text.drop 24).take 8) }

theorem holds_ofText {text : List UInt8} (h : text.length = laneBytes) :
    (ofText text).Holds text := by
  have hNonempty (n : Nat) (hn : n < 32) : text.drop n ≠ [] := by
    rw [Ne, List.drop_eq_nil_iff, h, laneBytes]
    omega
  have hEnd : text.drop 32 = [] := List.drop_of_length_le h.le
  have hFirst := Key.pack_eq (hNonempty 0 (by omega))
  have hSecond := Key.pack_eq (hNonempty 8 (by omega))
  have hThird := Key.pack_eq (hNonempty 16 (by omega))
  have hFourth := Key.pack_eq (hNonempty 24 (by omega))
  simp only [List.drop_drop, List.drop_zero, Nat.reduceAdd, hEnd,
    Key.pack_nil] at hFirst hSecond hThird hFourth
  exact ⟨h, by rw [hFirst, hSecond, hThird, hFourth, words, ofText]⟩

/-- Where thirty-two bytes are left, these are loaded. -/
theorem exists_load? {bytes : Bytes} {start : Nat} (h : start + laneBytes ≤ bytes.size) :
    ∃ lane, load? bytes start = some lane ∧
      lane.Holds ((bytes.toList.drop start).take laneBytes) := by
  have hLength : ((bytes.toList.drop start).take laneBytes).length = laneBytes := by
    simp only [List.length_take, List.length_drop, Array.length_toList]
    omega
  simp only [laneBytes] at h
  have hWord (n : Nat) (hn : n ≤ 24) : Word.load? bytes (start + n) =
      some (ofBytes ((((bytes.toList.drop start).take laneBytes).drop n).take 8)) := by
    rw [load?_eq, if_pos (by omega), laneBytes, List.drop_take, List.drop_drop, List.take_take,
      Nat.min_eq_left (by omega)]
  have hFirst : Word.load? bytes start = _ := hWord 0 (by omega)
  refine ⟨ofText ((bytes.toList.drop start).take laneBytes), ?_, holds_ofText hLength⟩
  rw [load?, hFirst, hWord 8 (by omega), hWord 16 (by omega), hWord 24 (by omega)]
  rfl

/-- Where fewer bytes are left, nothing is loaded. -/
theorem load?_eq_none {bytes : Bytes} {start : Nat} (h : bytes.size < start + laneBytes) :
    load? bytes start = none := by
  simp only [laneBytes] at h
  have hLast : Word.load? bytes (start + 24) = none := by
    rw [load?_eq, if_neg (by omega)]
  rw [load?, hLast]
  cases Word.load? bytes start with
  | none => rfl
  | some first =>
      cases Word.load? bytes (start + 8) with
      | none => rfl
      | some second =>
          cases Word.load? bytes (start + 16) <;> rfl

/-- The bytes of a lane lie inside the text they are taken from. -/
theorem Holds.add_le {lane : Lane} {text : List UInt8} {n : Nat}
    (h : lane.Holds ((text.drop n).take laneBytes)) : n + laneBytes ≤ text.length := by
  have hLane := h.length
  simp only [List.length_take, List.length_drop, laneBytes] at hLane ⊢
  omega

/-- A lane is searched like its bytes. -/
theorem Holds.find? {lane : Lane} {text : List UInt8} (h : lane.Holds text) (b : UInt8) :
    lane.find? b = text.findIdx? (· == b) := by
  rw [Lane.find?, h.words, Key.find?_pack b (by rw [h.length]; rfl)]

/-- A lane cut to its first `n` bytes, in as many words as these take. -/
theorem Holds.take_keep {lane : Lane} {text : List UInt8} (h : lane.Holds text) {n : Nat}
    (hn : n ≤ laneBytes) : (lane.keep n).take (countFor n) = Key.pack (text.take n) := by
  rw [Lane.keep, h.words, Key.take_keep_pack (by rw [h.length]; exact hn)]

/-- A cut lane keeps its length: zeros stand where the bytes from index `n` on were. -/
theorem Holds.flatMap_keep {lane : Lane} {text : List UInt8} (h : lane.Holds text) (n : Nat) :
    (lane.keep n).flatMap toBytes = text.take n ++ List.replicate (laneBytes - n) 0 := by
  have hWhole : text.length % 8 = 0 := by rw [h.length]; rfl
  rw [Lane.keep, h.words, Key.flatMap_keep_pack hWhole, h.length]

/-- The bytes of a loaded lane are those that follow where it starts. -/
theorem getElem?_take_drop {bytes : Bytes} {start i : Nat} (hi : i < laneBytes) :
    ((bytes.toList.drop start).take laneBytes)[i]? = bytes[start + i]? := by
  rw [List.getElem?_take_of_lt hi, List.getElem?_drop, Array.getElem?_toList]

/-- Wherever thirty-two bytes are left, the lane loaded there finds the first of any byte, and none
exactly if the byte is not among them. Cut at any index it is still four words, which hold the bytes
below the index as they were and zeros from there on. -/
theorem exists_load?_find?_keep {bytes : Bytes} {start : Nat} (h : start + laneBytes ≤ bytes.size) :
    ∃ lane, load? bytes start = some lane ∧
      (∀ b i, lane.find? b = some i ↔
        i < laneBytes ∧ bytes[start + i]? = some b ∧ ∀ j < i, bytes[start + j]? ≠ some b) ∧
      (∀ b, lane.find? b = none ↔ ∀ i < laneBytes, bytes[start + i]? ≠ some b) ∧
      ∀ n, (lane.keep n).length = laneWords ∧
        (lane.keep n).flatMap toBytes =
          (bytes.toList.drop start).take (min n laneBytes) ++ List.replicate (laneBytes - n) 0 := by
  obtain ⟨lane, hLoad, hHolds⟩ := exists_load? h
  refine ⟨lane, hLoad, fun b i => ?_, fun b => ?_, fun n => ⟨?_, ?_⟩⟩
  · rw [hHolds.find?, findIdx?_beq_eq_some_iff]
    constructor
    · rintro ⟨hMatch, hBefore⟩
      have hi : i < laneBytes := by
        rw [← hHolds.length]
        exact (List.getElem?_eq_some_iff.mp hMatch).1
      rw [getElem?_take_drop hi] at hMatch
      refine ⟨hi, hMatch, fun j hj => ?_⟩
      rw [← getElem?_take_drop (hj.trans hi)]
      exact hBefore j hj
    · rintro ⟨hi, hMatch, hBefore⟩
      rw [getElem?_take_drop hi]
      refine ⟨hMatch, fun j hj => ?_⟩
      rw [getElem?_take_drop (hj.trans hi)]
      exact hBefore j hj
  · rw [hHolds.find?, findIdx?_beq_eq_none_iff, List.mem_iff_getElem?, not_exists]
    refine forall_congr' fun i => ?_
    by_cases hi : i < laneBytes
    · rw [getElem?_take_drop hi, imp_iff_right hi]
    · rw [List.getElem?_eq_none (by rw [hHolds.length]; omega)]
      simp [hi]
  · rw [keep, length_keep, words, laneWords, laneBytes]
    rfl
  · rw [hHolds.flatMap_keep, List.take_take]

/-- Thirteen bytes that differ from a separator by one or not at all, after a byte the lane leaves
out: the search stops at the separator, and the bytes from 128 on behind it are found as well. -/
theorem exists_load?_colons_and_separator :
    ∃ lane,
      load? (#[7, 60, 58, 60, 58, 60, 58, 60, 58, 60, 58, 60, 58, 59] ++ Array.replicate 19 0x80)
        1 = some lane ∧
      lane.find? separator = some 12 ∧ lane.find? 0x80 = some 13 ∧ lane.find? 0 = none ∧
      (lane.keep 12).flatMap toBytes =
        [60, 58, 60, 58, 60, 58, 60, 58, 60, 58, 60, 58] ++ List.replicate 20 0 := by
  obtain ⟨lane, hLoad, hFound, hNone, hKeep⟩ := @exists_load?_find?_keep
    (#[7, 60, 58, 60, 58, 60, 58, 60, 58, 60, 58, 60, 58, 59] ++ Array.replicate 19 0x80) 1
      (by decide)
  exact ⟨lane, hLoad, (hFound separator 12).mpr (by decide), (hFound 0x80 13).mpr (by decide),
    (hNone 0).mpr (by decide), (hKeep 12).2⟩

end StationStats.Lane
