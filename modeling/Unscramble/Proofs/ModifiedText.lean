/-
Text is read back from its written form.  Standard UTF-8 reads the written form of every character but NUL and the
supplementary ones, and refuses those; the lenient reading reads all of them.
-/
import Unscramble.ClassFile.ModifiedUtf8

namespace Unscramble.ClassFile.ModifiedUtf8

/-- The written form of a character. -/
def charBytes (c : Char) : Bytes :=
  (units c).flatMap unitBytes

theorem encode_eq (text : String) : encode text = text.toList.flatMap charBytes := rfl

theorem toNat_lt (c : Char) : c.toNat < 0x110000 := by
  have hvalid : c.toNat.isValidChar := c.valid
  rcases hvalid with h | ⟨-, h⟩ <;> omega

/-- A byte that continues a character. -/
theorem isContinuation_ofNat {n : Nat} (h : n < 64) : isContinuation (UInt8.ofNat (0x80 + n)) := by
  simp [isContinuation, UInt8.lt_iff_toNat_lt, UInt8.le_iff_toNat_le]
  omega

theorem payload_ofNat {n : Nat} (h : n < 64) : payload (UInt8.ofNat (0x80 + n)) = n := by
  simp [payload]
  omega

theorem toNat_ofNat_add {base n : Nat} (h : base + n < 256) : (UInt8.ofNat (base + n)).toNat = base + n := by
  simp
  omega

section Standard

variable {a b c : UInt8} {rest : Bytes}

theorem standardChar?_one (h : a.toNat < 0x80) :
    standardChar? (a :: rest) = some (Char.ofNat a.toNat, 1) := by
  simp only [standardChar?, if_pos (UInt8.lt_iff_toNat_lt.2 h : a < 0x80)]

theorem standardChar?_two (hlow : 0xc0 ≤ a.toNat) (hhigh : a.toNat < 0xe0) (hb : isContinuation b) :
    standardChar? (a :: b :: rest) =
      (scalar? 0x80 (a.toNat % 32 * 64 + payload b)).map (·, 2) := by
  have h80 : ¬ a < 0x80 := by simp [UInt8.lt_iff_toNat_lt]; omega
  have hc0 : ¬ a < 0xc0 := by simp [UInt8.lt_iff_toNat_lt]; omega
  have he0 : a < 0xe0 := by simp [UInt8.lt_iff_toNat_lt]; omega
  simp only [standardChar?, if_neg h80, if_neg hc0, if_pos he0, if_pos hb]

theorem standardChar?_three (hlow : 0xe0 ≤ a.toNat) (hhigh : a.toNat < 0xf0)
    (hb : isContinuation b) (hc : isContinuation c) : standardChar? (a :: b :: c :: rest) =
      (scalar? 0x800 (a.toNat % 16 * 4096 + payload b * 64 + payload c)).map (·, 3) := by
  have h80 : ¬ a < 0x80 := by simp [UInt8.lt_iff_toNat_lt]; omega
  have hc0 : ¬ a < 0xc0 := by simp [UInt8.lt_iff_toNat_lt]; omega
  have he0 : ¬ a < 0xe0 := by simp [UInt8.lt_iff_toNat_lt]; omega
  have hf0 : a < 0xf0 := by simp [UInt8.lt_iff_toNat_lt]; omega
  simp only [standardChar?, if_neg h80, if_neg hc0, if_neg he0, if_pos hf0, hb, hc, Bool.and_self,
    if_true]

end Standard

section Lenient

variable {a b c d e f : UInt8} {rest : Bytes}

theorem lenientChar_one (h : a.toNat < 0x80) :
    lenientChar (a :: rest) = (Char.ofNat a.toNat, 1) := by
  simp only [lenientChar, if_pos (UInt8.lt_iff_toNat_lt.2 h : a < 0x80)]

theorem lenientChar_two (hlow : 0xc0 ≤ a.toNat) (hhigh : a.toNat < 0xe0) (hb : isContinuation b) :
    lenientChar (a :: b :: rest) = (Char.ofNat (a.toNat % 32 * 64 + payload b), 2) := by
  have h80 : ¬ a < 0x80 := by simp [UInt8.lt_iff_toNat_lt]; omega
  have hc0 : 0xc0 ≤ a := by simp [UInt8.le_iff_toNat_le]; omega
  have he0 : a < 0xe0 := by simp [UInt8.lt_iff_toNat_lt]; omega
  have hnot : ¬ 0xe0 ≤ a := by simp [UInt8.le_iff_toNat_le]; omega
  have hed : a ≠ 0xed := by rintro rfl; simp at hhigh
  simp only [lenientChar, if_neg h80, hc0, he0, hnot, hb, beq_eq_false_iff_ne.2 hed, decide_true,
    decide_false, Bool.and_self, Bool.false_and, Bool.false_eq_true, if_true, if_false]
  split <;> split <;> rfl

/-- A character of three bytes, which are not those of a high surrogate. -/
theorem lenientChar_three (hlow : 0xe0 ≤ a.toNat) (hhigh : a.toNat < 0xf0) (hb : isContinuation b)
    (hc : isContinuation c)
    (hvalid : (a.toNat % 16 * 4096 + payload b * 64 + payload c).isValidChar) :
    lenientChar (a :: b :: c :: rest) =
      (Char.ofNat (a.toNat % 16 * 4096 + payload b * 64 + payload c), 3) := by
  have h80 : ¬ a < 0x80 := by simp [UInt8.lt_iff_toNat_lt]; omega
  have he0 : 0xe0 ≤ a := by simp [UInt8.le_iff_toNat_le]; omega
  have hf0 : a < 0xf0 := by simp [UInt8.lt_iff_toNat_lt]; omega
  have hsurrogate : (a == 0xed && 0xa0 ≤ b && b < 0xb0) = false := by
    rw [Bool.eq_false_iff]
    intro h
    simp only [Bool.and_eq_true, beq_iff_eq, decide_eq_true_eq] at h
    obtain ⟨⟨rfl, hb0⟩, hb1⟩ := h
    simp only [UInt8.le_iff_toNat_le, UInt8.lt_iff_toNat_lt, UInt8.reduceToNat] at hb0 hb1
    simp only [payload, Nat.isValidChar, UInt8.reduceToNat] at hvalid
    omega
  simp only [lenientChar, if_neg h80, he0, hf0, hb, hc, hvalid, decide_true, Bool.and_self, if_true]
  split
  · rename_i hrest
    injection hrest with hb' _
    subst hb'
    simp [hsurrogate]
  · rfl

/-- The two surrogates of a supplementary character. -/
theorem lenientChar_six (hb0 : 0xa0 ≤ b.toNat) (hb1 : b.toNat < 0xb0) (hc : isContinuation c)
    (he0 : 0xb0 ≤ e.toNat) (he1 : e.toNat < 0xc0) (hf : isContinuation f) :
    lenientChar (0xed :: b :: c :: 0xed :: e :: f :: rest) =
      (Char.ofNat (0x10000 + (payload b % 16 * 64 + payload c) * 1024 +
        (payload e % 16 * 64 + payload f)), 6) := by
  have hb0' : 0xa0 ≤ b := by simpa [UInt8.le_iff_toNat_le] using hb0
  have hb1' : b < 0xb0 := by simpa [UInt8.lt_iff_toNat_lt] using hb1
  have he0' : 0xb0 ≤ e := by simpa [UInt8.le_iff_toNat_le] using he0
  have he1' : e < 0xc0 := by simpa [UInt8.lt_iff_toNat_lt] using he1
  have h80 : ¬ (0xed : UInt8) < 0x80 := by decide
  simp only [lenientChar, if_neg h80, hb0', hb1', hc, he0', he1', hf, beq_self_eq_true, decide_true,
    Bool.and_self, if_true]

end Lenient

section Characters

variable {c : Char} {rest : Bytes}

theorem charBytes_one (hpos : 0 < c.toNat) (hlt : c.toNat < 0x80) :
    charBytes c = [UInt8.ofNat c.toNat] := by
  simp [charBytes, units, unitBytes, hpos, hlt, (by omega : c.toNat < 0x10000)]

theorem charBytes_two (h : c.toNat = 0 ∨ 0x80 ≤ c.toNat) (hlt : c.toNat < 0x800) :
    charBytes c =
      [UInt8.ofNat (0xc0 + c.toNat / 64), UInt8.ofNat (0x80 + c.toNat % 64)] := by
  have hnot : ¬ (0 < c.toNat ∧ c.toNat < 0x80) := by omega
  simp [charBytes, units, unitBytes, hnot, hlt, (by omega : c.toNat < 0x10000)]

theorem charBytes_three (hlow : 0x800 ≤ c.toNat) (hlt : c.toNat < 0x10000) :
    charBytes c = [UInt8.ofNat (0xe0 + c.toNat / 4096), UInt8.ofNat (0x80 + c.toNat / 64 % 64),
      UInt8.ofNat (0x80 + c.toNat % 64)] := by
  have hnot : ¬ (0 < c.toNat ∧ c.toNat < 0x80) := by omega
  have hnot' : ¬ c.toNat < 0x800 := by omega
  simp only [charBytes, units, unitBytes, if_pos hlt, if_neg hnot, if_neg hnot',
    List.flatMap_cons, List.flatMap_nil, List.append_nil]

theorem charBytes_six (hlow : 0x10000 ≤ c.toNat) :
    charBytes c =
      [0xed, UInt8.ofNat (0xa0 + (c.toNat - 0x10000) / 65536),
        UInt8.ofNat (0x80 + (c.toNat - 0x10000) / 1024 % 64),
        0xed, UInt8.ofNat (0xb0 + (c.toNat - 0x10000) % 1024 / 64),
        UInt8.ofNat (0x80 + (c.toNat - 0x10000) % 64)] := by
  have hmax : c.toNat < 0x110000 := toNat_lt c
  have hnot : ¬ c.toNat < 0x10000 := by omega
  have hunit : ∀ unit, 0x800 ≤ unit → unitBytes unit =
      [UInt8.ofNat (0xe0 + unit / 4096), UInt8.ofNat (0x80 + unit / 64 % 64),
        UInt8.ofNat (0x80 + unit % 64)] := by
    intro unit h
    rw [unitBytes, if_neg (by omega), if_neg (by omega)]
  simp only [charBytes, units, if_neg hnot, List.flatMap_cons, List.flatMap_nil, List.append_nil]
  rw [hunit _ (by omega), hunit _ (by omega)]
  simp only [List.cons_append, List.nil_append, List.cons.injEq, and_true]
  exact ⟨congrArg UInt8.ofNat (by omega : _ = 0xed), congrArg UInt8.ofNat (by omega),
    congrArg UInt8.ofNat (by omega), congrArg UInt8.ofNat (by omega : _ = 0xed),
    congrArg UInt8.ofNat (by omega), congrArg UInt8.ofNat (by omega)⟩

theorem length_charBytes_pos (c : Char) : 0 < (charBytes c).length := by
  by_cases hsix : 0x10000 ≤ c.toNat
  · simp [charBytes_six hsix]
  · rw [charBytes, units, if_pos (by omega)]
    simp only [List.flatMap_cons, List.flatMap_nil, List.append_nil, unitBytes]
    split
    · simp
    · split <;> simp

/-- A character of two bytes is what they carry. -/
theorem value_two (hlt : c.toNat < 0x800) :
    (UInt8.ofNat (0xc0 + c.toNat / 64)).toNat % 32 * 64 + payload (UInt8.ofNat (0x80 + c.toNat % 64)) = c.toNat := by
  rw [toNat_ofNat_add (by omega), payload_ofNat (by omega)]
  omega

theorem value_three (hlt : c.toNat < 0x10000) :
    (UInt8.ofNat (0xe0 + c.toNat / 4096)).toNat % 16 * 4096 + payload (UInt8.ofNat (0x80 + c.toNat / 64 % 64)) * 64 +
      payload (UInt8.ofNat (0x80 + c.toNat % 64)) = c.toNat := by
  rw [toNat_ofNat_add (by omega), payload_ofNat (by omega), payload_ofNat (by omega)]
  omega

/-- Standard UTF-8 reads what is neither NUL nor supplementary. -/
theorem standardChar?_charBytes (hpos : 0 < c.toNat) (hlt : c.toNat < 0x10000) :
    standardChar? (charBytes c ++ rest) = some (c, (charBytes c).length) := by
  have hvalid : c.toNat.isValidChar := c.valid
  rcases (by omega : c.toNat < 0x80 ∨ (0x80 ≤ c.toNat ∧ c.toNat < 0x800) ∨ 0x800 ≤ c.toNat)
    with hone | ⟨hlow, htwo⟩ | hthree
  · have hfirst : (UInt8.ofNat c.toNat).toNat = c.toNat := by simp; omega
    rw [charBytes_one hpos hone, List.cons_append, standardChar?_one (by omega), hfirst,
      Char.ofNat_toNat]
    rfl
  · have hfirst := toNat_ofNat_add (by omega : 0xc0 + c.toNat / 64 < 256)
    rw [charBytes_two (.inr hlow) htwo, List.cons_append, List.cons_append,
      standardChar?_two (by omega) (by omega) (isContinuation_ofNat (by omega)), value_two htwo,
      scalar?, if_pos ⟨hlow, hvalid⟩, Char.ofNat_toNat]
    rfl
  · have hfirst := toNat_ofNat_add (by omega : 0xe0 + c.toNat / 4096 < 256)
    rw [charBytes_three hthree hlt, List.cons_append, List.cons_append, List.cons_append,
      standardChar?_three (by omega) (by omega) (isContinuation_ofNat (by omega))
        (isContinuation_ofNat (by omega)), value_three hlt, scalar?, if_pos ⟨hthree, hvalid⟩, Char.ofNat_toNat]
    rfl

/-- Standard UTF-8 refuses NUL in two bytes and surrogates. -/
theorem standardChar?_charBytes_eq_none (h : c.toNat = 0 ∨ 0x10000 ≤ c.toNat) :
    standardChar? (charBytes c ++ rest) = none := by
  rcases h with hzero | hsix
  · rw [charBytes_two (.inl hzero) (by omega), hzero]
    rfl
  · have hmax : c.toNat < 0x110000 := toNat_lt c
    have hhigh := toNat_ofNat_add (by omega : 0xa0 + (c.toNat - 0x10000) / 65536 < 256)
    have hb : isContinuation (UInt8.ofNat (0xa0 + (c.toNat - 0x10000) / 65536)) := by
      have h := isContinuation_ofNat (by omega : 0x20 + (c.toNat - 0x10000) / 65536 < 64)
      rwa [← Nat.add_assoc] at h
    have hc := isContinuation_ofNat (by omega : (c.toNat - 0x10000) / 1024 % 64 < 64)
    have hinvalid : ∀ value : Nat, 0xd800 ≤ value → value < 0xe000 → scalar? 0x800 value = none := by
      intro value hlow hlt
      rw [scalar?, if_neg]
      rintro ⟨-, hvalid⟩
      simp only [Nat.isValidChar] at hvalid
      omega
    simp only [charBytes_six hsix, List.cons_append]
    rw [standardChar?_three (by decide) (by decide) hb hc, hinvalid]
    · rfl
    · simp only [payload, hhigh, UInt8.reduceToNat]
      omega
    · simp only [payload, hhigh, UInt8.reduceToNat]
      omega

/-- The lenient reading reads every character. -/
theorem lenientChar_charBytes : lenientChar (charBytes c ++ rest) = (c, (charBytes c).length) := by
  have hvalid : c.toNat.isValidChar := c.valid
  rcases (by omega : (0 < c.toNat ∧ c.toNat < 0x80) ∨
      ((c.toNat = 0 ∨ 0x80 ≤ c.toNat) ∧ c.toNat < 0x800) ∨
      (0x800 ≤ c.toNat ∧ c.toNat < 0x10000) ∨ 0x10000 ≤ c.toNat)
    with ⟨hpos, hone⟩ | ⟨hlow, htwo⟩ | ⟨hlow, hthree⟩ | hsix
  · have hfirst : (UInt8.ofNat c.toNat).toNat = c.toNat := by simp; omega
    rw [charBytes_one hpos hone, List.cons_append, lenientChar_one (by omega), hfirst,
      Char.ofNat_toNat]
    rfl
  · have hfirst := toNat_ofNat_add (by omega : 0xc0 + c.toNat / 64 < 256)
    rw [charBytes_two hlow htwo, List.cons_append, List.cons_append,
      lenientChar_two (by omega) (by omega) (isContinuation_ofNat (by omega)), value_two htwo, Char.ofNat_toNat]
    rfl
  · have hfirst := toNat_ofNat_add (by omega : 0xe0 + c.toNat / 4096 < 256)
    rw [charBytes_three hlow hthree, List.cons_append, List.cons_append, List.cons_append,
      lenientChar_three (by omega) (by omega) (isContinuation_ofNat (by omega)) (isContinuation_ofNat (by omega)),
      value_three hthree, Char.ofNat_toNat]
    · rfl
    · rwa [value_three hthree]
  · have hmax : c.toNat < 0x110000 := toNat_lt c
    have hhigh := toNat_ofNat_add (by omega : 0xa0 + (c.toNat - 0x10000) / 65536 < 256)
    have hlow := toNat_ofNat_add (by omega : 0xb0 + (c.toNat - 0x10000) % 1024 / 64 < 256)
    have hc : (c.toNat - 0x10000) / 1024 % 64 < 64 := by omega
    have hf : (c.toNat - 0x10000) % 64 < 64 := by omega
    have hvalue : 0x10000 +
        ((0xa0 + (c.toNat - 0x10000) / 65536) % 64 % 16 * 64 + (c.toNat - 0x10000) / 1024 % 64) * 1024 +
        ((0xb0 + (c.toNat - 0x10000) % 1024 / 64) % 64 % 16 * 64 + (c.toNat - 0x10000) % 64) =
          c.toNat := by omega
    simp only [charBytes_six hsix, List.cons_append, List.nil_append]
    rw [lenientChar_six (by omega) (by omega) (isContinuation_ofNat hc) (by omega) (by omega)
      (isContinuation_ofNat hf), payload_ofNat hc, payload_ofNat hf, payload, payload, hhigh, hlow,
      hvalue, Char.ofNat_toNat]
    rfl

end Characters

section Texts

variable {fuel : Nat} {input : Bytes} {c : Char} {cs done chars : List Char}

theorem standardOnto_of_some {count : Nat} (h : standardChar? input = some (c, count)) :
    standardOnto (fuel + 1) input done = standardOnto fuel (input.drop count) (c :: done) := by
  cases input with
  | nil => simp [standardChar?] at h
  | cons b rest => simp only [standardOnto, h]

theorem standardOnto_zero (hne : input ≠ []) : standardOnto 0 input done = none := by
  cases input with
  | nil => exact absurd rfl hne
  | cons b rest => rfl

theorem standardOnto_of_none (hne : input ≠ []) (h : standardChar? input = none) :
    standardOnto fuel input done = none := by
  cases fuel with
  | zero => exact standardOnto_zero hne
  | succ fuel =>
      cases input with
      | nil => exact absurd rfl hne
      | cons b rest => simp only [standardOnto, h]

theorem lenientOnto_succ (hne : input ≠ []) : lenientOnto (fuel + 1) input done =
    lenientOnto fuel (input.drop (lenientChar input).2) ((lenientChar input).1 :: done) := by
  cases input with
  | nil => exact absurd rfl hne
  | cons b rest => rfl

theorem charBytes_append_ne_nil (c : Char) (rest : Bytes) : charBytes c ++ rest ≠ [] := by
  have hpos := length_charBytes_pos c
  intro h
  rw [(List.append_eq_nil_iff.1 h).1] at hpos
  exact absurd hpos (by decide)

/-- Standard UTF-8 gives the text, if it gives one; then no character is NUL or supplementary. -/
theorem standardOnto_flatMap (h : standardOnto fuel (cs.flatMap charBytes) done = some chars) :
    chars = done.reverse ++ cs ∧ ∀ c ∈ cs, 0 < c.toNat ∧ c.toNat < 0x10000 := by
  induction cs generalizing fuel done with
  | nil =>
      rw [List.flatMap_nil, standardOnto] at h
      injection h with h
      exact ⟨by rw [List.append_nil, h], nofun⟩
  | cons c cs ih =>
      rw [List.flatMap_cons] at h
      by_cases hstandard : 0 < c.toNat ∧ c.toNat < 0x10000
      · have hchar : standardChar? (charBytes c ++ cs.flatMap charBytes) = _ :=
          standardChar?_charBytes hstandard.1 hstandard.2
        cases fuel with
        | zero =>
            rw [standardOnto_zero (charBytes_append_ne_nil c _)] at h
            cases h
        | succ fuel =>
            rw [standardOnto_of_some hchar, List.drop_left] at h
            obtain ⟨hchars, hrest⟩ := ih h
            exact ⟨by simp [hchars], List.forall_mem_cons.2 ⟨hstandard, hrest⟩⟩
      · rw [standardOnto_of_none (charBytes_append_ne_nil c _)
          (standardChar?_charBytes_eq_none (by omega))] at h
        cases h

theorem lenientOnto_flatMap (hfuel : cs.length ≤ fuel) :
    lenientOnto fuel (cs.flatMap charBytes) done = done.reverse ++ cs := by
  induction cs generalizing fuel done with
  | nil => simp [lenientOnto]
  | cons c cs ih =>
      cases fuel with
      | zero => exact absurd hfuel (by simp)
      | succ fuel =>
          rw [List.flatMap_cons, lenientOnto_succ (charBytes_append_ne_nil c _),
            lenientChar_charBytes, List.drop_left, ih (Nat.le_of_succ_le_succ hfuel)]
          simp

theorem length_le_flatMap {form : Char → Bytes} (h : ∀ c, 0 < (form c).length) (cs : List Char) :
    cs.length ≤ (cs.flatMap form).length := by
  induction cs with
  | nil => exact Nat.le_refl 0
  | cons c cs ih =>
      have hpos := h c
      simp only [List.flatMap_cons, List.length_append, List.length_cons]
      omega

/-- Text is read back from its written form. -/
theorem decode_encode (text : String) : decode (encode text) = text := by
  rw [encode_eq, decode]
  cases h : standardOnto _ (text.toList.flatMap charBytes) [] with
  | some chars => simp [(standardOnto_flatMap h).1]
  | none =>
      simp only [lenientOnto_flatMap (length_le_flatMap length_charBytes_pos text.toList)]
      simp

end Texts

end Unscramble.ClassFile.ModifiedUtf8
