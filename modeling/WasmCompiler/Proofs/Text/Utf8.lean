import Mathlib.Data.List.Basic
import WasmCompiler.Text.Utf8

/-!
# Reading encoded text

The bytes of a text are read back as that text. A character takes one to four bytes; in each case
the first byte tells how many, the others are continuation bytes, and the bits that the bytes carry
are the number of the character (`parts_utf8EncodeChar`). What the reader leaves out, the long
spellings and the surrogates, is what no character has.

From one character the result goes to texts by induction (`parts_encode`), and from there to both
readers: the strict one (`decode?_encode`) and the one that puts a mark for what it cannot read
(`decodeLossy_encode`).
-/

namespace WasmCompiler.Text.Utf8

/-! ### Bytes by their numbers

The tests of the reader are read as statements about numbers, where arithmetic decides them. -/

theorem toNat_ofNat {n : Nat} (hn : n < 256) : (UInt8.ofNat n).toNat = n :=
  UInt8.toNat_ofNat_of_lt' hn

/-- A byte lies in a range if its number does. -/
theorem within_ofNat_iff (first last : UInt8) {n : Nat} (hn : n < 256) :
    within first last (.ofNat n) = true ↔ first.toNat ≤ n ∧ n ≤ last.toNat := by
  rw [within, Bool.and_eq_true, decide_eq_true_eq, decide_eq_true_eq, UInt8.le_iff_toNat_le,
    UInt8.le_iff_toNat_le, toNat_ofNat hn]

theorem ofNat_beq_iff (byte : UInt8) {n : Nat} (hn : n < 256) :
    (UInt8.ofNat n == byte) = true ↔ n = byte.toNat := by
  rw [beq_iff_eq, ← UInt8.toNat_inj, toNat_ofNat hn]

/-- Bytes are in the order of their numbers. -/
theorem ofNat_lt_iff (byte : UInt8) {n : Nat} (hn : n < 256) :
    UInt8.ofNat n < byte ↔ n < byte.toNat := by
  rw [UInt8.lt_iff_toNat_lt, toNat_ofNat hn]

/-- Six bits make a continuation byte, which carries them. -/
theorem isContinuation_ofNat {n : Nat} (hn : n < 64) :
    isContinuation (.ofNat (n + 128)) = true := by
  have hlow : (0x80 : UInt8).toNat ≤ n + 128 := Nat.le_add_left 128 n
  have hhigh : n + 128 ≤ (0xbf : UInt8).toNat := Nat.add_le_add_right (Nat.le_of_lt_succ hn) 128
  exact (within_ofNat_iff _ _ (by omega)).mpr ⟨hlow, hhigh⟩

/-- A continuation byte carries six bits. -/
theorem payload_ofNat {n : Nat} (hn : n < 64) : payload (.ofNat (n + 128)) = n := by
  rw [payload, toNat_ofNat (by omega)]
  omega

/-! ### The first part, by the number of its bytes

For each length, the bits of the number in groups of six, the first group as large as the first byte
has room for. -/

section LeadingPart

variable {a b c d : Nat} (rest : List UInt8)

/-- One byte is the number of the character. -/
theorem leadingPart_one (ha : a < 128) :
    leadingPart (.ofNat a) rest = (some (Char.ofNat a), 0) := by
  have hsmall : UInt8.ofNat a < 0x80 := (ofNat_lt_iff _ (by omega)).mpr ha
  rw [leadingPart.eq_def, if_pos hsmall, toNat_ofNat (by omega)]

/-- Two bytes, of which the first carries at least 2: below that one byte would do. -/
theorem leadingPart_two (hlow : 2 ≤ a) (ha : a < 32) (hb : b < 64) :
    leadingPart (.ofNat (a + 192)) (.ofNat (b + 128) :: rest) =
      (some (Char.ofNat (a * 64 + b)), 1) := by
  have hbyte : a + 192 < 256 := by omega
  have h1 : ¬ UInt8.ofNat (a + 192) < 0x80 := by
    rw [ofNat_lt_iff _ hbyte]
    show ¬ a + 192 < 128
    omega
  have h2 : within 0xc2 0xdf (.ofNat (a + 192)) = true := by
    rw [within_ofNat_iff _ _ hbyte]
    show 194 ≤ a + 192 ∧ a + 192 ≤ 223
    omega
  have hbits : (a + 192) % 32 = a := by omega
  rw [leadingPart, if_neg h1, if_pos h2]
  simp only [isContinuation_ofNat hb, payload_ofNat hb, toNat_ofNat hbyte, hbits, if_true]

/-- Three bytes, of which the second must be one that the first admits. -/
theorem leadingPart_three (ha : a < 16) (hb : b < 64) (hc : c < 64)
    (hadmits : admitsSecond (.ofNat (a + 224)) (.ofNat (b + 128)) = true) :
    leadingPart (.ofNat (a + 224)) (.ofNat (b + 128) :: .ofNat (c + 128) :: rest) =
      (some (Char.ofNat ((a * 64 + b) * 64 + c)), 2) := by
  have hbyte : a + 224 < 256 := by omega
  -- the first byte is in none of the ranges of shorter sequences
  have h1 : ¬ UInt8.ofNat (a + 224) < 0x80 := by
    rw [ofNat_lt_iff _ hbyte]
    show ¬ a + 224 < 128
    omega
  have h2 : ¬ within 0xc2 0xdf (.ofNat (a + 224)) = true := by
    rw [within_ofNat_iff _ _ hbyte]
    show ¬ (194 ≤ a + 224 ∧ a + 224 ≤ 223)
    omega
  have h3 : within 0xe0 0xef (.ofNat (a + 224)) = true := by
    rw [within_ofNat_iff _ _ hbyte]
    show 224 ≤ a + 224 ∧ a + 224 ≤ 239
    omega
  have hbits : (a + 224) % 16 = a := by omega
  rw [leadingPart, if_neg h1, if_neg h2, if_pos h3]
  simp only [hadmits, isContinuation_ofNat hc, Bool.not_true, Bool.false_eq_true, if_false,
    payload_ofNat hb, payload_ofNat hc, toNat_ofNat hbyte, hbits]

/-- Four bytes, with the same condition on the second. -/
theorem leadingPart_four (ha : a < 5) (hb : b < 64) (hc : c < 64) (hd : d < 64)
    (hadmits : admitsSecond (.ofNat (a + 240)) (.ofNat (b + 128)) = true) :
    leadingPart (.ofNat (a + 240))
        (.ofNat (b + 128) :: .ofNat (c + 128) :: .ofNat (d + 128) :: rest) =
      (some (Char.ofNat (((a * 64 + b) * 64 + c) * 64 + d)), 3) := by
  have hbyte : a + 240 < 256 := by omega
  -- the first byte is in none of the ranges of shorter sequences
  have h1 : ¬ UInt8.ofNat (a + 240) < 0x80 := by
    rw [ofNat_lt_iff _ hbyte]
    show ¬ a + 240 < 128
    omega
  have h2 : ¬ within 0xc2 0xdf (.ofNat (a + 240)) = true := by
    rw [within_ofNat_iff _ _ hbyte]
    show ¬ (194 ≤ a + 240 ∧ a + 240 ≤ 223)
    omega
  have h3 : ¬ within 0xe0 0xef (.ofNat (a + 240)) = true := by
    rw [within_ofNat_iff _ _ hbyte]
    show ¬ (224 ≤ a + 240 ∧ a + 240 ≤ 239)
    omega
  have h4 : within 0xf0 0xf4 (.ofNat (a + 240)) = true := by
    rw [within_ofNat_iff _ _ hbyte]
    show 240 ≤ a + 240 ∧ a + 240 ≤ 244
    omega
  have hbits : (a + 240) % 8 = a := by omega
  rw [leadingPart, if_neg h1, if_neg h2, if_neg h3, if_pos h4]
  simp only [hadmits, isContinuation_ofNat hc, isContinuation_ofNat hd, Bool.not_true,
    Bool.false_eq_true, if_false, payload_ofNat hb, payload_ofNat hc, payload_ofNat hd,
    toNat_ofNat hbyte, hbits]

end LeadingPart

/-- Three bytes whose number is too large for two, and not that of a surrogate. -/
theorem admitsSecond_three {a b : Nat} (ha : a < 16) (hb : b < 64) (hlow : a = 0 → 32 ≤ b)
    (hsurrogate : a = 13 → b < 32) :
    admitsSecond (.ofNat (a + 224)) (.ofNat (b + 128)) = true := by
  have hbyte : a + 224 < 256 := by omega
  have hnext : b + 128 < 256 := by omega
  simp only [admitsSecond, isContinuation, ofNat_beq_iff _ hbyte]
  -- two leading bytes restrict what follows, for overlong forms and for surrogates
  split_ifs with h1 h2 h3 h4
  · rw [within_ofNat_iff _ _ hnext]
    have hzero : a + 224 = 224 := h1
    show 160 ≤ b + 128 ∧ b + 128 ≤ 191
    omega
  · rw [within_ofNat_iff _ _ hnext]
    have hthirteen : a + 224 = 237 := h2
    show 128 ≤ b + 128 ∧ b + 128 ≤ 159
    omega
  · have hno : a + 224 = 240 := h3
    omega
  · have hno : a + 224 = 244 := h4
    omega
  · exact isContinuation_ofNat hb

/-- Four bytes whose number is too large for three, and not beyond the last character. -/
theorem admitsSecond_four {a b : Nat} (ha : a < 5) (hb : b < 64) (hlow : a = 0 → 16 ≤ b)
    (hlast : a = 4 → b < 16) :
    admitsSecond (.ofNat (a + 240)) (.ofNat (b + 128)) = true := by
  have hbyte : a + 240 < 256 := by omega
  have hnext : b + 128 < 256 := by omega
  simp only [admitsSecond, isContinuation, ofNat_beq_iff _ hbyte]
  -- two leading bytes restrict what follows, for overlong forms and for what lies too high
  split_ifs with h1 h2 h3 h4
  · have hno : a + 240 = 224 := h1
    omega
  · have hno : a + 240 = 237 := h2
    omega
  · rw [within_ofNat_iff _ _ hnext]
    have hzero : a + 240 = 240 := h3
    show 144 ≤ b + 128 ∧ b + 128 ≤ 191
    omega
  · rw [within_ofNat_iff _ _ hnext]
    have hfour : a + 240 = 244 := h4
    show 128 ≤ b + 128 ∧ b + 128 ≤ 143
    omega
  · exact isContinuation_ofNat hb

/-! ### Characters and texts

A part is read without a look at what follows it. -/

/-- What the first part takes is dropped, and the others follow. -/
theorem parts_of_leadingPart {first : UInt8} {more rest : List UInt8} {char : Option Char}
    (h : leadingPart first (more ++ rest) = (char, more.length)) :
    parts (first :: more ++ rest) = char :: parts rest := by
  rw [List.cons_append, parts, h]
  show char :: parts ((more ++ rest).drop more.length) = _
  rw [List.drop_left]

/-- The bytes of a character are read as that character. -/
theorem parts_utf8EncodeChar (char : Char) (rest : List UInt8) :
    parts (String.utf8EncodeChar char ++ rest) = some char :: parts rest := by
  have hvalid : char.toNat < 0xd800 ∨ 0xdfff < char.toNat ∧ char.toNat < 0x110000 := char.valid
  have hchar {n : Nat} (hn : n = char.toNat) : Char.ofNat n = char := by
    rw [hn, Char.ofNat_toNat]
  rw [String.utf8EncodeChar, show char.val.toNat = char.toNat from rfl]
  -- the bytes carry the digits of the number of the character to base 64
  have hdigit (n : Nat) : n % 64 < 64 := Nat.mod_lt n (by decide)
  split_ifs with h1 h2 h3
  · refine parts_of_leadingPart ?_
    rw [leadingPart_one _ (by omega), hchar rfl]
    rfl
  · refine parts_of_leadingPart ?_
    refine (leadingPart_two _ ?_ ?_ (hdigit _)).trans ?_
    · omega
    · omega
    · rw [hchar (by omega)]
      rfl
  · refine parts_of_leadingPart ?_
    refine (leadingPart_three _ ?_ (hdigit _) (hdigit _) (admitsSecond_three ?_ ?_ ?_ ?_)).trans ?_
    iterate 5 omega
    rw [hchar (by omega)]
    rfl
  · refine parts_of_leadingPart ?_
    refine (leadingPart_four _ ?_ (hdigit _) (hdigit _) (hdigit _)
      (admitsSecond_four ?_ ?_ ?_ ?_)).trans ?_
    iterate 5 omega
    rw [hchar (by omega)]
    rfl

/-- By induction over the text, one character after another. -/
theorem parts_encode (text : String) : parts (encode text) = text.toList.map some := by
  rw [encode]
  induction text.toList with
  | nil =>
    rw [List.flatMap_nil, parts]
    rfl
  | cons c cs ih => rw [List.flatMap_cons, parts_utf8EncodeChar, ih, List.map_cons]

/-- Text that was encoded is read back. -/
theorem decodeLossy_encode (text : String) : decodeLossy (encode text) = text := by
  rw [decodeLossy, parts_encode, List.map_map]
  show String.ofList (text.toList.map id) = text
  rw [List.map_id, String.ofList_toList]

/-- Every part of encoded text is a character. -/
theorem decode?_encode (text : String) : decode? (encode text) = some text := by
  rw [decode?, parts_encode, List.mapM_map]
  show Option.map String.ofList (text.toList.mapM pure) = some text
  rw [List.mapM_pure]
  show some (String.ofList (text.toList.map id)) = some text
  rw [List.map_id, String.ofList_toList]

end WasmCompiler.Text.Utf8
