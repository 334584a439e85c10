/-
Text in standard UTF-8.  The standard reading reads the standard form of every text.  The form in which class files hold
text is the standard one where no character is NUL or supplementary, and elsewhere it is no standard UTF-8 at all.  So it
does no harm that reading first takes the bytes for standard UTF-8: each text is read back from either form.
-/
import Mathlib.Data.List.Basic
import Unscramble.Proofs.ModifiedText

namespace Unscramble.ClassFile.ModifiedUtf8

open String (utf8EncodeChar)

variable {c : Char} {rest : Bytes}

theorem standardChar?_four {a b c d : UInt8} (hlow : 0xf0 ≤ a.toNat) (hhigh : a.toNat < 0xf8) (hb : isContinuation b)
    (hc : isContinuation c) (hd : isContinuation d) : standardChar? (a :: b :: c :: d :: rest) =
      (scalar? 0x10000 (a.toNat % 8 * 262144 + payload b * 4096 + payload c * 64 + payload d)).map (·, 4) := by
  have h80 : ¬ a < 0x80 := by simp [UInt8.lt_iff_toNat_lt]; omega
  have hc0 : ¬ a < 0xc0 := by simp [UInt8.lt_iff_toNat_lt]; omega
  have he0 : ¬ a < 0xe0 := by simp [UInt8.lt_iff_toNat_lt]; omega
  have hf0 : ¬ a < 0xf0 := by simp [UInt8.lt_iff_toNat_lt]; omega
  have hf8 : a < 0xf8 := by simp [UInt8.lt_iff_toNat_lt]; omega
  simp only [standardChar?, if_neg h80, if_neg hc0, if_neg he0, if_neg hf0, if_pos hf8, hb, hc, hd, Bool.and_self,
    if_true]

/-- The standard form of a character is the one of class files, unless it is NUL or supplementary. -/
theorem utf8EncodeChar_eq_charBytes (hpos : 0 < c.toNat) (hlt : c.toNat < 0x10000) : utf8EncodeChar c = charBytes c := by
  have hvalue : c.val.toNat = c.toNat := rfl
  rcases (by omega : c.toNat < 0x80 ∨ (0x80 ≤ c.toNat ∧ c.toNat < 0x800) ∨ 0x800 ≤ c.toNat)
    with hone | ⟨hlow, htwo⟩ | hthree
  · rw [charBytes_one hpos hone]
    simp only [utf8EncodeChar, hvalue, if_pos (by omega : c.toNat ≤ 0x7f)]
  · rw [charBytes_two (.inr hlow) htwo]
    simp only [utf8EncodeChar, hvalue, if_neg (by omega : ¬ c.toNat ≤ 0x7f), if_pos (by omega : c.toNat ≤ 0x7ff)]
    simp only [List.cons.injEq, and_true]
    exact ⟨congrArg UInt8.ofNat (by omega), congrArg UInt8.ofNat (by omega)⟩
  · rw [charBytes_three hthree hlt]
    simp only [utf8EncodeChar, hvalue, if_neg (by omega : ¬ c.toNat ≤ 0x7f), if_neg (by omega : ¬ c.toNat ≤ 0x7ff),
      if_pos (by omega : c.toNat ≤ 0xffff), List.cons.injEq, and_true]
    exact ⟨congrArg UInt8.ofNat (by omega), congrArg UInt8.ofNat (by omega), congrArg UInt8.ofNat (by omega)⟩

theorem utf8EncodeChar_four (hlow : 0x10000 ≤ c.toNat) :
    utf8EncodeChar c = [UInt8.ofNat (0xf0 + c.toNat / 262144), UInt8.ofNat (0x80 + c.toNat / 4096 % 64),
      UInt8.ofNat (0x80 + c.toNat / 64 % 64), UInt8.ofNat (0x80 + c.toNat % 64)] := by
  have hvalue : c.val.toNat = c.toNat := rfl
  have hmax : c.toNat < 0x110000 := toNat_lt c
  simp only [utf8EncodeChar, hvalue, if_neg (by omega : ¬ c.toNat ≤ 0x7f), if_neg (by omega : ¬ c.toNat ≤ 0x7ff),
    if_neg (by omega : ¬ c.toNat ≤ 0xffff), List.cons.injEq, and_true]
  exact ⟨congrArg UInt8.ofNat (by omega), congrArg UInt8.ofNat (by omega), congrArg UInt8.ofNat (by omega),
    congrArg UInt8.ofNat (by omega)⟩

theorem length_utf8EncodeChar_pos (c : Char) : 0 < (utf8EncodeChar c).length := by
  rw [String.length_utf8EncodeChar]
  exact c.utf8Size_pos

/-- The standard reading reads the standard form of every character. -/
theorem standardChar?_utf8EncodeChar (c : Char) (rest : Bytes) :
    standardChar? (utf8EncodeChar c ++ rest) = some (c, (utf8EncodeChar c).length) := by
  have hvalid : c.toNat.isValidChar := c.valid
  have hmax : c.toNat < 0x110000 := toNat_lt c
  rcases (by omega : c.toNat = 0 ∨ (0 < c.toNat ∧ c.toNat < 0x10000) ∨ 0x10000 ≤ c.toNat)
    with hzero | ⟨hpos, hlt⟩ | hlow
  · obtain rfl : c = Char.ofNat 0 := by rw [← hzero, Char.ofNat_toNat]
    rfl
  · rw [utf8EncodeChar_eq_charBytes hpos hlt]
    exact standardChar?_charBytes hpos hlt
  · have hfirst := toNat_ofNat_add (by omega : 0xf0 + c.toNat / 262144 < 256)
    have hsecond : c.toNat / 4096 % 64 < 64 := by omega
    have hthird : c.toNat / 64 % 64 < 64 := by omega
    have hlast : c.toNat % 64 < 64 := by omega
    have hvalue : (0xf0 + c.toNat / 262144) % 8 * 262144 + c.toNat / 4096 % 64 * 4096 + c.toNat / 64 % 64 * 64 +
        c.toNat % 64 = c.toNat := by omega
    simp only [utf8EncodeChar_four hlow, List.cons_append, List.nil_append]
    rw [standardChar?_four (by omega) (by omega) (isContinuation_ofNat hsecond) (isContinuation_ofNat hthird)
      (isContinuation_ofNat hlast), hfirst, payload_ofNat hsecond, payload_ofNat hthird, payload_ofNat hlast, hvalue,
      scalar?, if_pos ⟨hlow, hvalid⟩, Char.ofNat_toNat]
    rfl

/-- The standard reading reads standard UTF-8 to its end. -/
theorem standardOnto_utf8EncodeChar {fuel : Nat} {cs done : List Char} (hfuel : cs.length ≤ fuel) :
    standardOnto fuel (cs.flatMap utf8EncodeChar) done = some (done.reverse ++ cs) := by
  induction cs generalizing fuel done with
  | nil => simp [standardOnto]
  | cons c cs ih =>
      cases fuel with
      | zero => exact absurd hfuel (by simp)
      | succ fuel =>
          rw [List.flatMap_cons, standardOnto_of_some (standardChar?_utf8EncodeChar c _), List.drop_left,
            ih (Nat.le_of_succ_le_succ hfuel)]
          simp

theorem standardOnto_of_standard (cs : List Char) :
    standardOnto (cs.flatMap utf8EncodeChar).length (cs.flatMap utf8EncodeChar) [] = some cs :=
  standardOnto_utf8EncodeChar (length_le_flatMap length_utf8EncodeChar_pos cs)

theorem toUTF8_eq (text : String) : text.toUTF8.data.toList = text.toList.flatMap utf8EncodeChar := by
  rw [String.toUTF8_eq_toByteArray, ← String.utf8Encode_toList, List.utf8Encode, List.data_toByteArray]

/-- Standard UTF-8 is taken as such. -/
theorem decode_toUTF8 (text : String) : decode text.toUTF8.data.toList = text := by
  rw [toUTF8_eq, decode, standardOnto_of_standard]
  exact String.ofList_toList

/-- The written form of a text is standard UTF-8 where no character is NUL or supplementary, and only there. -/
theorem isValidUTF8_encode_iff (text : String) :
    (encode text).toByteArray.IsValidUTF8 ↔ ∀ c ∈ text.toList, 0 < c.toNat ∧ c.toNat < 0x10000 := by
  rw [encode_eq]
  constructor
  · rintro ⟨cs, hcs⟩
    have hbytes := List.toByteArray_inj.1 hcs
    have hread := standardOnto_of_standard cs
    rw [← hbytes] at hread
    exact (standardOnto_flatMap hread).2
  · intro hplain
    have hbytes : text.toList.flatMap charBytes = text.toList.flatMap utf8EncodeChar :=
      List.flatMap_congr fun c hc => (utf8EncodeChar_eq_charBytes (hplain c hc).1 (hplain c hc).2).symm
    exact ⟨text.toList, congrArg List.toByteArray hbytes⟩

/-- Every text is read back from its written form and from standard UTF-8.  No text is taken for another one, since the
written form is standard UTF-8 only where the two are the same: where no character is NUL or supplementary. -/
theorem decode_exact (text : String) :
    decode (encode text) = text ∧ decode text.toUTF8.data.toList = text ∧
      ((encode text).toByteArray.IsValidUTF8 ↔ ∀ c ∈ text.toList, 0 < c.toNat ∧ c.toNat < 0x10000) :=
  ⟨decode_encode text, decode_toUTF8 text, isValidUTF8_encode_iff text⟩

end Unscramble.ClassFile.ModifiedUtf8
