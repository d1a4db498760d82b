import CodeAtlas.Text.Utf8
import Mathlib.Data.List.Basic

/-!
# Texts and their bytes

The bytes of a text are those of its characters in order, and reading them gives the text back, whichever
characters it holds.
-/

namespace CodeAtlas.Text

theorem toList_loop (bytes : ByteArray) (i : Nat) (read : List UInt8) :
    ByteArray.toList.loop bytes i read = read.reverse ++ bytes.data.toList.drop i := by
  induction hk : bytes.size - i generalizing i read with
  | zero =>
    have hend : bytes.data.toList.length ≤ i := by
      rw [Array.length_toList]
      exact Nat.le_of_sub_eq_zero hk
    rw [ByteArray.toList.loop.eq_def, if_neg (by omega), List.drop_eq_nil_of_le hend, List.append_nil]
  | succ k ih =>
    have hlt : i < bytes.size := by omega
    have hget : i < bytes.data.toList.length := by
      rw [Array.length_toList]
      exact hlt
    have hbyte : bytes.get! i = bytes.data.toList[i] := by
      rw [ByteArray.get!, Array.getElem_toList]
      exact getElem!_pos bytes.data i hlt
    rw [ByteArray.toList.loop.eq_def, if_pos hlt, ih (i + 1) _ (by omega), hbyte, List.reverse_cons, List.append_assoc,
      List.drop_eq_getElem_cons hget]
    rfl

theorem encode_eq (s : String) : encode s = s.toList.flatMap String.utf8EncodeChar := by
  have hbytes : s.toUTF8 = (s.toList.flatMap String.utf8EncodeChar).toByteArray := by
    conv_lhs => rw [← String.ofList_toList (s := s)]
    exact String.toByteArray_ofList
  rw [encode, hbytes, ByteArray.toList, toList_loop, List.data_toByteArray]
  rfl

theorem toNat_byte {n : Nat} (h : n < 256) : (UInt8.ofNat n).toNat = n := by
  rw [UInt8.toNat_ofNat']
  exact Nat.mod_eq_of_lt h

theorem isContinuation_byte (n : Nat) : isContinuation (UInt8.ofNat (n % 64 + 128)) = true := by
  rw [isContinuation, toNat_byte (by omega)]
  simp only [Bool.and_eq_true, decide_eq_true_eq]
  omega

theorem tailBits_byte (n : Nat) : tailBits (UInt8.ofNat (n % 64 + 128)) = n % 64 := by
  rw [tailBits, toNat_byte (by omega)]
  omega

theorem secondFits_of {b c : UInt8} (hc : isContinuation c = true) (hleast : b.toNat = 0xE0 → 0xA0 ≤ c.toNat)
    (hpairs : b.toNat = 0xED → c.toNat < 0xA0) (hlong : b.toNat = 0xF0 → 0x90 ≤ c.toNat)
    (hlast : b.toNat = 0xF4 → c.toNat < 0x90) : secondFits b c = true := by
  rw [secondFits, hc, Bool.true_and]
  split
  · next h => exact decide_eq_true (hleast h)
  · next h => exact decide_eq_true (hpairs h)
  · next h => exact decide_eq_true (hlong h)
  · next h => exact decide_eq_true (hlast h)
  · rfl

/-- The bytes of a character are read as that character, whatever follows them. -/
theorem firstPiece_of_char (c : Char) (rest : List UInt8) :
    ∃ b tail, String.utf8EncodeChar c = b :: tail ∧ firstPiece b (tail ++ rest) = .char c (tail.length + 1) := by
  have hvalid : c.val.toNat < 0xD800 ∨ (0xDFFF < c.val.toNat ∧ c.val.toNat < 0x110000) := c.valid
  have hchar : Char.ofNat c.val.toNat = c := Char.ofNat_toNat c
  have hbytes := String.utf8EncodeChar.eq_1 c
  generalize c.val.toNat = v at hvalid hchar hbytes
  rw [hbytes]
  by_cases h1 : v ≤ 127
  · have hb := toNat_byte (show v < 256 by omega)
    refine ⟨_, _, if_pos h1, ?_⟩
    rw [firstPiece.eq_def, hb, if_pos (by omega), hchar]
    rfl
  by_cases h2 : v ≤ 2047
  · have hb := toNat_byte (show v / 64 % 32 + 192 < 256 by omega)
    have hvalue : (v / 64 % 32 + 192) % 32 * 64 + v % 64 = v := by omega
    refine ⟨_, _, (if_neg h1).trans (if_pos h2), ?_⟩
    rw [firstPiece.eq_def, hb, if_neg (by omega), if_neg (by simp; omega), if_pos (by omega), List.cons_append]
    simp only [isContinuation_byte, if_true, tailBits_byte, hvalue, hchar]
    rfl
  by_cases h3 : v ≤ 65535
  · have hb := toNat_byte (show v / 4096 % 16 + 224 < 256 by omega)
    have hc := toNat_byte (show v / 64 % 64 + 128 < 256 by omega)
    have hvalue : ((v / 4096 % 16 + 224) % 16 * 64 + v / 64 % 64) * 64 + v % 64 = v := by omega
    have hfits : secondFits (UInt8.ofNat (v / 4096 % 16 + 224)) (UInt8.ofNat (v / 64 % 64 + 128)) = true := by
      apply secondFits_of (isContinuation_byte _) <;> rw [hb, hc] <;> omega
    refine ⟨_, _, (if_neg h1).trans ((if_neg h2).trans (if_pos h3)), ?_⟩
    rw [firstPiece.eq_def, hb, if_neg (by omega), if_neg (by simp; omega), if_neg (by omega), if_pos (by omega),
      List.cons_append, List.cons_append]
    simp only [hfits, isContinuation_byte, Bool.not_true, Bool.false_eq_true, if_false, tailBits_byte, hvalue, hchar]
    rfl
  · have hb := toNat_byte (show v / 262144 % 8 + 240 < 256 by omega)
    have hc := toNat_byte (show v / 4096 % 64 + 128 < 256 by omega)
    have hvalue : (((v / 262144 % 8 + 240) % 8 * 64 + v / 4096 % 64) * 64 + v / 64 % 64) * 64 + v % 64 = v := by omega
    have hfits : secondFits (UInt8.ofNat (v / 262144 % 8 + 240)) (UInt8.ofNat (v / 4096 % 64 + 128)) = true := by
      apply secondFits_of (isContinuation_byte _) <;> rw [hb, hc] <;> omega
    refine ⟨_, _, (if_neg h1).trans ((if_neg h2).trans (if_neg h3)), ?_⟩
    rw [firstPiece.eq_def, hb, if_neg (by omega), if_neg (by simp; omega), if_neg (by omega), if_neg (by omega),
      List.cons_append, List.cons_append, List.cons_append]
    simp only [hfits, isContinuation_byte, Bool.not_true, Bool.false_eq_true, if_false, tailBits_byte, hvalue, hchar]
    rfl

theorem pieces_length_append (skipped rest : List UInt8) : pieces skipped.length (skipped ++ rest) = pieces 0 rest := by
  induction skipped with
  | nil => rfl
  | cons b skipped ih => exact ih

/-- The bytes of a text give the text back. -/
theorem decodeLossy_encode (s : String) : decodeLossy (encode s) = s := by
  rw [encode_eq, decodeLossy]
  conv_rhs => rw [← String.ofList_toList (s := s)]
  congr 1
  induction s.toList with
  | nil => rfl
  | cons c cs ih =>
    obtain ⟨b, tail, hbytes, hpiece⟩ := firstPiece_of_char c (cs.flatMap String.utf8EncodeChar)
    rw [List.flatMap_cons, hbytes, List.cons_append, pieces, hpiece]
    simp only [Piece.size, Nat.add_sub_cancel, pieces_length_append, List.map_cons, ih]

theorem encode_injective {s t : String} (h : encode s = encode t) : s = t := by
  rw [← decodeLossy_encode s, h, decodeLossy_encode]

end CodeAtlas.Text
