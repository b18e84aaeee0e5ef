import StationStats.Station.Key
import StationStats.Proofs.Word.Search

/-!
Packed names. Packing works on eight bytes at a time, and searching, masking and unpacking
the words of a name do to them what they would do to its bytes. A name and its key
therefore determine each other.
-/

namespace StationStats

namespace Key

open Word

@[simp] theorem pack_nil : pack [] = [] := by rw [pack]

/-- One step of packing: the first eight bytes, or what there is of them, and the rest. -/
theorem pack_eq {bytes : List UInt8} (h : bytes ≠ []) :
    pack bytes = ofBytes (bytes.take 8) :: pack (bytes.drop 8) := by
  cases bytes with
  | nil => exact absurd rfl h
  | cons b rest => rw [pack]; rfl

/-- Packing in blocks of eight: an induction principle for all that is proved of packed bytes. -/
theorem blocks {P : List UInt8 → Prop} (nil : P [])
    (block : ∀ bytes, bytes ≠ [] → P (bytes.drop 8) → P bytes) (bytes : List UInt8) : P bytes := by
  by_cases h : bytes = []
  · exact h ▸ nil
  · exact block bytes h (blocks nil block (bytes.drop 8))
termination_by bytes.length
decreasing_by
  have := List.length_pos_iff.mpr h
  simp only [List.length_drop]
  omega

/-- Whole blocks are packed apart from what follows them. -/
theorem pack_append {first : List UInt8} (hWhole : first.length % 8 = 0) (second : List UInt8) :
    pack (first ++ second) = pack first ++ pack second := by
  induction first using blocks with
  | nil => simp
  | block first hNonempty ih =>
      have hLength := List.length_pos_iff.mpr hNonempty
      have hEight : 8 ≤ first.length := by omega
      rw [pack_eq (by simp [hNonempty]), pack_eq hNonempty, List.take_append_of_le_length hEight,
        List.drop_append_of_le_length hEight, ih (by rw [List.length_drop]; omega),
          List.cons_append]

/-- Unpacking gives the bytes back, with the zeros that filled up the last word behind them. -/
theorem flatMap_toBytes_pack (bytes : List UInt8) :
    ((pack bytes).flatMap toBytes).take bytes.length = bytes := by
  induction bytes using blocks with
  | nil => simp
  | block bytes hNonempty ih =>
      rw [pack_eq hNonempty, List.flatMap_cons]
      by_cases hEight : 8 ≤ bytes.length
      · have hTake : (bytes.take 8).length = 8 := by simp [hEight]
        have hRest : bytes.length = 8 + (bytes.drop 8).length := by rw [List.length_drop]; omega
        rw [toBytes_ofBytes hTake, hRest, List.take_append, hTake, Nat.add_sub_cancel_left, ih,
          List.take_of_length_le (by omega), List.take_append_drop]
      · have hTake : bytes.take 8 = bytes := List.take_of_length_le (by omega)
        have hDrop : bytes.drop 8 = [] := List.drop_of_length_le (by omega)
        rw [hTake, hDrop, pack_nil, List.flatMap_nil, List.append_nil,
          toBytes_ofBytes_eq (by omega), List.take_left]

/-- The key of a name, whatever its length. -/
def packed (name : List UInt8) : Key := { words := pack name, length := name.length }

@[simp] theorem words_packed (name : List UInt8) : (packed name).words = pack name := rfl

@[simp] theorem length_packed (name : List UInt8) : (packed name).length = name.length := rfl

/-- A packed name is read back from its key. -/
@[simp] theorem name_packed (name : List UInt8) :
    (packed name).name = name := flatMap_toBytes_pack name

/-- Names with the same words and the same length are the same. -/
theorem packed_inj {first second : List UInt8} : packed first = packed second ↔ first = second := by
  constructor
  · intro h
    rw [← name_packed first, h, name_packed]
  · exact congrArg packed

/-- The words and the length are all there is to a key. -/
theorem eq_packed_iff {key : Key} {name : List UInt8} :
    key = packed name ↔ key.words = pack name ∧ key.length = name.length := by
  cases key
  rw [packed, mk.injEq]

theorem ofName_eq {name : List UInt8} (h : name.length ≤ keyBytes) :
    ofName name = .ok (packed name) := by
  rw [ofName, if_pos h]
  rfl

/-- A search through packed blocks finds what a search through the bytes finds. -/
theorem find?_pack (b : UInt8) {bytes : List UInt8} (hWhole : bytes.length % 8 = 0) :
    Word.find? b (pack bytes) = bytes.findIdx? (· == b) := by
  induction bytes using blocks with
  | nil => simp [Word.find?]
  | block bytes hNonempty ih =>
      have hLength := List.length_pos_iff.mpr hNonempty
      have hTake : (bytes.take 8).length = 8 := by rw [List.length_take]; omega
      have hDrop : (bytes.drop 8).length % 8 = 0 := by rw [List.length_drop]; omega
      conv_rhs => rw [← List.take_append_drop 8 bytes]
      rw [pack_eq hNonempty, find?_ofBytes_cons hTake, ih hDrop, List.findIdx?_append, hTake]

/-- The mask of the low `n` bytes. -/
theorem lowMask_eq {n : Nat} (h : n ≤ 8) :
    lowMask n = ofBytes (List.replicate n 0xFF ++ List.replicate (8 - n) 0) := by
  revert h
  revert n
  decide

/-- A mask of whole bytes keeps the bytes it covers. -/
theorem ofBytes_and_mask (bytes : List UInt8) (n rest : Nat) (h : bytes.length ≤ n + rest) :
    ofBytes bytes &&& ofBytes (List.replicate n 0xFF ++ List.replicate rest 0) =
      ofBytes (bytes.take n) := by
  induction bytes generalizing n rest with
  | nil => simp
  | cons b bytes ih =>
      have hAll : b &&& 0xFF = b := forall_byte (P := fun b => b &&& 0xFF = b) (by decide +kernel) b
      cases n with
      | zero =>
          have hZeros : ofBytes (List.replicate rest 0) = 0 := by
            simpa using ofBytes_append_zeros [] rest
          simp [hZeros]
      | succ n =>
          simp only [List.length_cons] at h
          have hRest := ih n rest (by omega)
          simp only [List.replicate_succ, List.cons_append, ofBytes_cons, List.take_succ_cons,
            cons_and, hAll, hRest]

theorem ofBytes_and_lowMask {bytes : List UInt8} (h : bytes.length ≤ 8) (n : Nat) :
    ofBytes bytes &&& lowMask n = ofBytes (bytes.take n) := by
  by_cases hSmall : n ≤ 8
  · rw [lowMask_eq hSmall, ofBytes_and_mask _ _ _ (by omega)]
  · have hAll : lowMask n = lowMask 8 := by
      rw [lowMask, if_neg (by omega)]
      rfl
    rw [hAll, lowMask_eq (le_refl 8), ofBytes_and_mask _ _ _ (by omega),
      List.take_of_length_le (by omega), List.take_of_length_le (by omega)]

/-- Masked words, cut to those that hold a kept byte, pack the kept bytes. -/
theorem take_keep_pack {bytes : List UInt8} {n : Nat} (h : n ≤ bytes.length) :
    (keep n (pack bytes)).take (countFor n) = pack (bytes.take n) := by
  induction bytes using blocks generalizing n with
  | nil =>
      simp only [List.length_nil, Nat.le_zero] at h
      simp [h, keep]
  | block bytes hNonempty ih =>
      cases n with
      | zero => simp [countFor]
      | succ n =>
          have hCount : countFor (n + 1) = countFor (n + 1 - 8) + 1 := by
            simp only [countFor]; omega
          have hTaken : bytes.take (n + 1) ≠ [] := by simp [hNonempty]
          have hRest := ih (n := n + 1 - 8) (by rw [List.length_drop]; omega)
          rw [pack_eq hNonempty, keep, hCount, List.take_succ_cons, hRest, pack_eq hTaken,
            ofBytes_and_lowMask (by simp), List.take_take, List.take_take, List.drop_take,
              Nat.min_comm]

/-- The bytes of masked words: the kept bytes, and zeros in place of the others. -/
theorem flatMap_keep_pack {bytes : List UInt8} (hWhole : bytes.length % 8 = 0) (n : Nat) :
    (keep n (pack bytes)).flatMap toBytes =
      bytes.take n ++ List.replicate (bytes.length - n) 0 := by
  induction bytes using blocks generalizing n with
  | nil => simp [keep]
  | block bytes hNonempty ih =>
      have hLength := List.length_pos_iff.mpr hNonempty
      have hFirst : (bytes.take 8).length = 8 := by rw [List.length_take]; omega
      have hRest := ih (by rw [List.length_drop]; omega) (n - 8)
      have hWord : toBytes (ofBytes (bytes.take 8) &&& lowMask n) =
          (bytes.take 8).take n ++ List.replicate (8 - n) 0 := by
        rw [ofBytes_and_lowMask hFirst.le, toBytes_ofBytes_eq (by simp), List.length_take, hFirst]
        congr 2
        omega
      rw [pack_eq hNonempty, keep, List.flatMap_cons, hWord, hRest, List.length_drop]
      by_cases hInside : n ≤ 8
      · have hNone : n - 8 = 0 := by omega
        have hZeros : 8 - n + (bytes.length - 8) = bytes.length - n := by omega
        rw [hNone, List.take_zero, List.nil_append, Nat.sub_zero, List.append_assoc,
          List.replicate_append_replicate, hZeros, List.take_take, Nat.min_eq_left hInside]
      · have hNone : 8 - n = 0 := by omega
        have hSplit : n = 8 + (n - 8) := by omega
        have hZeros : bytes.length - 8 - (n - 8) = bytes.length - n := by omega
        rw [hNone, List.replicate_zero, List.append_nil, hZeros, List.take_of_length_le (by omega),
          ← List.append_assoc, ← List.take_add, ← hSplit]

end Key

end StationStats
