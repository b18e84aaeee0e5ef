import Mathlib.Tactic.Convert
import StationStats.Text.Utf8

/-!
What is decoded: exactly the bytes that encode some characters, and the characters that they encode.
-/

namespace StationStats.Utf8

/-- The bytes that encode some characters. -/
def encode (chars : List Char) : List UInt8 := chars.flatMap String.utf8EncodeChar

/-! ### Well-formed characters -/

theorem continues_iff {b : UInt8} : Continues b ↔ 0x80 ≤ b.toNat ∧ b.toNat ≤ 0xBF := by
  simp only [Continues, UInt8.le_iff_toNat_le, UInt8.reduceToNat]

theorem secondOfThree_iff {a b : UInt8} :
    SecondOfThree a b ↔ 0x80 ≤ b.toNat ∧ b.toNat ≤ 0xBF ∧ (a.toNat = 0xE0 → 0xA0 ≤ b.toNat) ∧
      (a.toNat = 0xED → b.toNat ≤ 0x9F) := by
  simp only [SecondOfThree, continues_iff, UInt8.le_iff_toNat_le, ← UInt8.toNat_inj,
    UInt8.reduceToNat]
  split
  · omega
  · split <;> omega

theorem secondOfFour_iff {a b : UInt8} :
    SecondOfFour a b ↔ 0x80 ≤ b.toNat ∧ b.toNat ≤ 0xBF ∧ (a.toNat = 0xF0 → 0x90 ≤ b.toNat) ∧
      (a.toNat = 0xF4 → b.toNat ≤ 0x8F) := by
  simp only [SecondOfFour, continues_iff, UInt8.le_iff_toNat_le, ← UInt8.toNat_inj,
    UInt8.reduceToNat]
  split
  · omega
  · split <;> omega

/-- The well-formed characters, with the numbers they stand for. -/
inductive IsChar : List UInt8 → Nat → Prop where
  | one {a : UInt8} (ha : a < 0x80) : IsChar [a] a.toNat
  | two {a b : UInt8} (ha : 0xC2 ≤ a ∧ a ≤ 0xDF) (hb : Continues b) :
      IsChar [a, b] (a.toNat % 32 * 64 + payload b)
  | three {a b c : UInt8} (ha : 0xE0 ≤ a ∧ a ≤ 0xEF) (hb : SecondOfThree a b) (hc : Continues c) :
      IsChar [a, b, c] ((a.toNat % 16 * 64 + payload b) * 64 + payload c)
  | four {a b c d : UInt8} (ha : 0xF0 ≤ a ∧ a ≤ 0xF4) (hb : SecondOfFour a b) (hc : Continues c)
      (hd : Continues d) :
      IsChar [a, b, c, d] (((a.toNat % 8 * 64 + payload b) * 64 + payload c) * 64 + payload d)

theorem not_lt_of_le {a b c : UInt8} (h : b ≤ a) (hc : c ≤ b) : ¬ a < c :=
  UInt8.not_lt.mpr (UInt8.le_trans hc h)

theorem not_le_of_le {a b c : UInt8} (h : b ≤ a) (hc : c < b) : ¬ a ≤ c :=
  fun hLe => UInt8.lt_irrefl _ (UInt8.lt_of_lt_of_le hc (UInt8.le_trans h hLe))

/-- A well-formed character is decoded, whatever stands behind it. -/
theorem IsChar.decodeFrom_append {text : List UInt8} {n : Nat} (h : IsChar text n) (start : Nat)
    (rest : List UInt8) :
    decodeFrom start (text ++ rest) = (decodeFrom (start + text.length) rest).map
      (Char.ofNat n :: ·) := by
  cases h with
  | one ha =>
      rw [List.cons_append, decodeFrom.eq_def]
      simp only [if_pos ha]
      rfl
  | two ha hb =>
      have hNot : ¬ _ < (0x80 : UInt8) := not_lt_of_le ha.1 (by decide)
      rw [List.cons_append, decodeFrom.eq_def]
      simp only [if_neg hNot, if_pos ha, List.cons_append, if_pos hb]
      rfl
  | three ha hb hc =>
      have hNot : ¬ _ < (0x80 : UInt8) := not_lt_of_le ha.1 (by decide)
      have hNotTwo : ¬ _ ≤ (0xDF : UInt8) := not_le_of_le ha.1 (by decide)
      rw [List.cons_append, decodeFrom.eq_def]
      simp only [if_neg hNot, hNotTwo, and_false, if_false, if_pos ha, List.cons_append, hb,
        not_true, if_pos hc]
      rfl
  | four ha hb hc hd =>
      have hNot : ¬ _ < (0x80 : UInt8) := not_lt_of_le ha.1 (by decide)
      have hNotTwo : ¬ _ ≤ (0xDF : UInt8) := not_le_of_le ha.1 (by decide)
      have hNotThree : ¬ _ ≤ (0xEF : UInt8) := not_le_of_le ha.1 (by decide)
      rw [List.cons_append, decodeFrom.eq_def]
      simp only [if_neg hNot, hNotTwo, hNotThree, and_false, if_false, if_pos ha, List.cons_append,
        hb, hc, not_true, if_pos hd]
      rfl

section Encoding

variable {c : Char}

theorem encodeChar_one (h : c.toNat ≤ 0x7F) : String.utf8EncodeChar c = [UInt8.ofNat c.toNat] :=
  if_pos h

theorem encodeChar_two (h : ¬ c.toNat ≤ 0x7F) (hTwo : c.toNat ≤ 0x7FF) :
    String.utf8EncodeChar c =
      [UInt8.ofNat (c.toNat / 64 % 32 + 0xC0), UInt8.ofNat (c.toNat % 64 + 0x80)] :=
  (if_neg h).trans (if_pos hTwo)

theorem encodeChar_three (h : ¬ c.toNat ≤ 0x7F) (hTwo : ¬ c.toNat ≤ 0x7FF)
    (hThree : c.toNat ≤ 0xFFFF) :
    String.utf8EncodeChar c = [UInt8.ofNat (c.toNat / 4096 % 16 + 0xE0),
      UInt8.ofNat (c.toNat / 64 % 64 + 0x80), UInt8.ofNat (c.toNat % 64 + 0x80)] :=
  (if_neg h).trans ((if_neg hTwo).trans (if_pos hThree))

theorem encodeChar_four (h : ¬ c.toNat ≤ 0x7F) (hTwo : ¬ c.toNat ≤ 0x7FF)
    (hThree : ¬ c.toNat ≤ 0xFFFF) :
    String.utf8EncodeChar c = [UInt8.ofNat (c.toNat / 262144 % 8 + 0xF0),
      UInt8.ofNat (c.toNat / 4096 % 64 + 0x80), UInt8.ofNat (c.toNat / 64 % 64 + 0x80),
      UInt8.ofNat (c.toNat % 64 + 0x80)] :=
  (if_neg h).trans ((if_neg hTwo).trans (if_neg hThree))

end Encoding

/-- A well-formed character is the encoding of the character that it stands for. -/
theorem IsChar.encode_eq {text : List UInt8} {n : Nat} (h : IsChar text n) :
    String.utf8EncodeChar (Char.ofNat n) = text := by
  have hByte {b : UInt8} {n : Nat} (hn : n = b.toNat) :
    UInt8.ofNat n = b := by rw [hn, UInt8.ofNat_toNat]
  have hVal {n : Nat} (hn : n < 0xD800 ∨ 0xDFFF < n ∧ n < 0x110000) : (Char.ofNat n).toNat = n := by
    have hValid : n.isValidChar := hn
    rw [Char.ofNat, dif_pos hValid]
    rfl
  cases h with
  | @one a ha =>
      rw [UInt8.lt_iff_toNat_lt] at ha
      change a.toNat < 0x80 at ha
      have hNumber := hVal (n := a.toNat) (by omega)
      rw [encodeChar_one (by omega), hNumber, hByte rfl]
  | @two a b ha hb =>
      rw [UInt8.le_iff_toNat_le, UInt8.le_iff_toNat_le] at ha
      rw [continues_iff] at hb
      change 0xC2 ≤ a.toNat ∧ a.toNat ≤ 0xDF at ha
      simp only [payload]
      have hNumber := hVal (n := a.toNat % 32 * 64 + b.toNat % 64) (by omega)
      rw [encodeChar_two (by omega) (by omega), hNumber, hByte (b := a) (by omega),
        hByte (b := b) (by omega)]
  | @three a b c ha hb hc =>
      rw [UInt8.le_iff_toNat_le, UInt8.le_iff_toNat_le] at ha
      rw [secondOfThree_iff] at hb
      rw [continues_iff] at hc
      change 0xE0 ≤ a.toNat ∧ a.toNat ≤ 0xEF at ha
      simp only [payload]
      have hNumber := hVal (n := (a.toNat % 16 * 64 + b.toNat % 64) * 64 + c.toNat % 64) (by omega)
      rw [encodeChar_three (by omega) (by omega) (by omega), hNumber, hByte (b := a) (by omega),
        hByte (b := b) (by omega), hByte (b := c) (by omega)]
  | @four a b c d ha hb hc hd =>
      rw [UInt8.le_iff_toNat_le, UInt8.le_iff_toNat_le] at ha
      rw [secondOfFour_iff] at hb
      rw [continues_iff] at hc hd
      change 0xF0 ≤ a.toNat ∧ a.toNat ≤ 0xF4 at ha
      simp only [payload]
      have hNumber :=
        hVal (n := ((a.toNat % 8 * 64 + b.toNat % 64) * 64 + c.toNat % 64) * 64 + d.toNat % 64)
        (by omega)
      rw [encodeChar_four (by omega) (by omega) (by omega), hNumber, hByte (b := a) (by omega),
        hByte (b := b) (by omega), hByte (b := c) (by omega), hByte (b := d) (by omega)]

/-- Every character is encoded as a well-formed one. -/
theorem isChar_encodeChar (c : Char) : IsChar (String.utf8EncodeChar c) c.toNat := by
  have hValid : c.toNat < 0xD800 ∨ 0xDFFF < c.toNat ∧ c.toNat < 0x110000 := c.valid
  have hNat {n : Nat} (hn : n < 256) : (UInt8.ofNat n).toNat = n := UInt8.toNat_ofNat_of_lt' hn
  have hFirst {n : Nat} {low high : UInt8} (hn : n < 256) (h : low.toNat ≤ n ∧ n ≤ high.toNat) :
      low ≤ UInt8.ofNat n ∧ UInt8.ofNat n ≤ high := by
    rw [UInt8.le_iff_toNat_le, UInt8.le_iff_toNat_le, hNat hn]
    exact h
  have hContinues (n : Nat) : Continues (UInt8.ofNat (n % 64 + 0x80)) := by
    rw [continues_iff, hNat (by omega)]
    omega
  have hPayload (n : Nat) : payload (UInt8.ofNat (n % 64 + 0x80)) = n % 64 := by
    rw [payload, hNat (by omega)]
    omega
  by_cases hOne : c.toNat ≤ 0x7F
  · rw [encodeChar_one hOne]
    have hByte : (UInt8.ofNat c.toNat).toNat = c.toNat := hNat (by omega)
    have hText := IsChar.one (a := UInt8.ofNat c.toNat) <| by
      rw [UInt8.lt_iff_toNat_lt, hByte]
      exact Nat.lt_succ_of_le hOne
    rwa [hByte] at hText
  · by_cases hTwo : c.toNat ≤ 0x7FF
    · rw [encodeChar_two hOne hTwo]
      have hByte : (UInt8.ofNat (c.toNat / 64 % 32 + 0xC0)).toNat = c.toNat / 64 % 32 + 0xC0 :=
        hNat (by omega)
      have hText := IsChar.two (a := UInt8.ofNat (c.toNat / 64 % 32 + 0xC0))
        (hFirst (by omega) ⟨show 0xC2 ≤ _ by omega, show _ ≤ 0xDF by omega⟩) (hContinues c.toNat)
      rw [hByte, hPayload] at hText
      convert hText using 1
      omega
    · by_cases hThree : c.toNat ≤ 0xFFFF
      · rw [encodeChar_three hOne hTwo hThree]
        have hByte :
            (UInt8.ofNat (c.toNat / 4096 % 16 + 0xE0)).toNat = c.toNat / 4096 % 16 + 0xE0 :=
          hNat (by omega)
        have hText := IsChar.three (a := UInt8.ofNat (c.toNat / 4096 % 16 + 0xE0))
          (hFirst (by omega) ⟨show 0xE0 ≤ _ by omega, show _ ≤ 0xEF by omega⟩)
          (b := UInt8.ofNat (c.toNat / 64 % 64 + 0x80)) (by
            rw [secondOfThree_iff, hByte, hNat (by omega)]
            omega) (hContinues c.toNat)
        rw [hByte, hPayload, hPayload] at hText
        convert hText using 1
        omega
      · rw [encodeChar_four hOne hTwo hThree]
        have hByte :
            (UInt8.ofNat (c.toNat / 262144 % 8 + 0xF0)).toNat = c.toNat / 262144 % 8 + 0xF0 :=
          hNat (by omega)
        have hText := IsChar.four (a := UInt8.ofNat (c.toNat / 262144 % 8 + 0xF0))
          (hFirst (by omega) ⟨show 0xF0 ≤ _ by omega, show _ ≤ 0xF4 by omega⟩)
          (b := UInt8.ofNat (c.toNat / 4096 % 64 + 0x80)) (by
            rw [secondOfFour_iff, hByte, hNat (by omega)]
            omega) (hContinues (c.toNat / 64)) (hContinues c.toNat)
        rw [hByte, hPayload, hPayload, hPayload] at hText
        convert hText using 1
        omega

/-! ### Texts -/

/-- What is decoded is what the characters encode. -/
theorem encode_of_decodeFrom {start : Nat} {bytes : List UInt8} {chars : List Char}
    (h : decodeFrom start bytes = .ok chars) : encode chars = bytes := by
  have hStep {d : Except DecodeError (List Char)} {text rest : List UInt8} {n : Nat}
      {chars : List Char}
      (hChar : IsChar text n) (hRest : ∀ {more}, d = .ok more → encode more = rest)
      (h : d.map (Char.ofNat n :: ·) = .ok chars) : encode chars = text ++ rest := by
    cases d with
    | error e => cases h
    | ok more =>
        cases h
        rw [encode, List.flatMap_cons, hChar.encode_eq, ← hRest rfl, encode]
  fun_induction decodeFrom start bytes generalizing chars with
  | case1 => cases h; rfl
  | case2 start a rest ha ih => exact hStep (.one ha) ih h
  | case4 start a _ ha b rest hb ih => exact hStep (.two ha hb) ih h
  | case9 start a _ _ ha b hb c rest hc ih =>
      exact hStep (.three ha (Decidable.not_not.mp hb) hc) ih h
  | case16 start a _ _ _ ha b hb c hc d rest hd ih =>
      exact hStep (.four ha (Decidable.not_not.mp hb) (Decidable.not_not.mp hc) hd) ih h
  | _ => cases h

/-- What characters encode is decoded to them. -/
theorem decodeFrom_encode (chars : List Char) (start : Nat) :
    decodeFrom start (encode chars) = .ok chars := by
  induction chars generalizing start with
  | nil => rw [encode, List.flatMap_nil, decodeFrom.eq_def]
  | cons c rest ih =>
      rw [encode, List.flatMap_cons, ← encode, (isChar_encodeChar c).decodeFrom_append, ih,
        Char.ofNat_toNat]
      rfl

/-- Decoding succeeds exactly on the bytes that encode some characters, and returns these. -/
theorem decode_ok_iff {bytes : List UInt8} {chars : List Char} :
    decode bytes = .ok chars ↔ encode chars = bytes := by
  constructor
  · exact encode_of_decodeFrom
  · rintro rfl
    exact decodeFrom_encode chars 0

/-- A text is stored as what its characters encode. -/
theorem toByteArray_eq_iff {text : String} {bytes : List UInt8} :
    text.toByteArray = bytes.toByteArray ↔ encode text.toList = bytes := by
  rw [← List.toByteArray_inj, ← String.utf8Encode_toList]
  exact Iff.rfl

/-- Bytes are a text exactly if they can be decoded. -/
theorem isValidUTF8_iff {bytes : List UInt8} :
    bytes.toByteArray.IsValidUTF8 ↔ ∃ chars, decode bytes = .ok chars := by
  constructor
  · intro hValid
    have hText : (String.fromUTF8 bytes.toByteArray hValid).toByteArray = bytes.toByteArray := rfl
    exact ⟨_, decode_ok_iff.mpr (toByteArray_eq_iff.mp hText)⟩
  · rintro ⟨chars, hDecoded⟩
    have hText : (String.ofList chars).toByteArray = bytes.toByteArray := by
      rw [toByteArray_eq_iff, String.toList_ofList]
      exact decode_ok_iff.mp hDecoded
    exact hText ▸ String.isValidUTF8 _

end StationStats.Utf8
