/-
Words and readers.  A word is read back from its bytes, and readers that take the parts of an input one after
another take the whole of it.
-/
import Mathlib.Algebra.Group.Nat.Defs
import Mathlib.Data.List.Forall2
import Unscramble.ClassFile.Bytes

namespace Unscramble.ClassFile

section Words

theorem valueOf_u16Bytes (n : UInt16) : UInt16.ofNat (valueOf (u16Bytes n)) = n := by
  apply UInt16.toNat_inj.1
  have hlt := n.toNat_lt
  simp [valueOf, u16Bytes, Nat.shiftRight_eq_div_pow]
  omega

theorem u32Bytes_valueOf (a b c d : UInt8) : u32Bytes (UInt32.ofNat (valueOf [a, b, c, d])) = [a, b, c, d] := by
  have hvalue : valueOf [a, b, c, d] = ((a.toNat * 256 + b.toNat) * 256 + c.toNat) * 256 + d.toNat := by
    simp [valueOf]
  have ha := a.toNat_lt
  have hb := b.toNat_lt
  have hc := c.toNat_lt
  have hd := d.toNat_lt
  rw [hvalue]
  simp only [u32Bytes, List.cons.injEq, and_true, ← UInt8.toNat_inj]
  simp [Nat.shiftRight_eq_div_pow]
  omega

/-- A word of four bytes is written as its two halves. -/
theorem u32Bytes_eq (n : UInt32) :
    u32Bytes n = u16Bytes (n >>> 16).toUInt16 ++ u16Bytes n.toUInt16 := by
  have hfirst : (n >>> 24).toUInt8 = ((n >>> 16).toUInt16 >>> 8).toUInt8 := by
    apply UInt8.toNat_inj.1
    have hlt := n.toNat_lt
    simp [Nat.shiftRight_eq_div_pow]
    omega
  have hthird : (n >>> 8).toUInt8 = (n.toUInt16 >>> 8).toUInt8 := by
    apply UInt8.toNat_inj.1
    simp [Nat.shiftRight_eq_div_pow]
    omega
  simp [u32Bytes, u16Bytes, hfirst, hthird]

/-- A number is its upper part, shifted back, with the lower bits. -/
theorem shiftLeft_div_or_mod (value bits : Nat) :
    (value / 2 ^ bits) <<< bits ||| value % 2 ^ bits = value := by
  have hlow : value % 2 ^ bits < 2 ^ bits := Nat.mod_lt _ (Nat.two_pow_pos bits)
  rw [← Nat.shiftLeft_add_eq_or_of_lt hlow, Nat.shiftLeft_eq, Nat.div_add_mod']

theorem join_u32 (n : UInt32) :
    (n >>> 16).toUInt16.toUInt32 <<< 16 ||| n.toUInt16.toUInt32 = n := by
  apply UInt32.toNat_inj.1
  have hlt := n.toNat_lt
  have hjoin := shiftLeft_div_or_mod n.toNat 16
  rw [Nat.shiftLeft_eq] at hjoin
  simp [Nat.shiftRight_eq_div_pow, Nat.shiftLeft_eq] at hjoin ⊢
  rwa [Nat.mod_eq_of_lt (by omega), Nat.mod_eq_of_lt (by omega)]

theorem join_u64 (n : UInt64) :
    (n >>> 32).toUInt32.toUInt64 <<< 32 ||| n.toUInt32.toUInt64 = n := by
  apply UInt64.toNat_inj.1
  have hlt := n.toNat_lt
  have hjoin := shiftLeft_div_or_mod n.toNat 32
  rw [Nat.shiftLeft_eq] at hjoin
  simp [Nat.shiftRight_eq_div_pow, Nat.shiftLeft_eq] at hjoin ⊢
  rwa [Nat.mod_eq_of_lt (by omega), Nat.mod_eq_of_lt (by omega)]

@[simp] theorem length_u16Bytes (n : UInt16) : (u16Bytes n).length = 2 := rfl

@[simp] theorem length_u32Bytes (n : UInt32) : (u32Bytes n).length = 4 := rfl

end Words

namespace Reader

variable {α β : Type}

/-- A reader takes the bytes off the front of every input that starts with them, and gives the value. -/
def Takes (reader : Reader α) (bytes : Bytes) (a : α) : Prop :=
  ∀ rest, reader.run (bytes ++ rest) = some (a, rest)

theorem Takes.pure (a : α) : Takes (pure a) [] a :=
  fun _ => rfl

theorem Takes.bind {reader : Reader α} {next : α → Reader β} {first last : Bytes} {a : α} {b : β}
    (h : Takes reader first a) (h' : Takes (next a) last b) :
    Takes (reader >>= next) (first ++ last) b := by
  intro rest
  rw [List.append_assoc]
  show (reader.run (first ++ (last ++ rest))).bind (fun p => (next p.1).run p.2) = _
  rw [h (last ++ rest)]
  exact h' rest

/-- The last of several readers. -/
theorem Takes.last {reader : Reader α} {next : α → Reader β} {bytes : Bytes} {a : α} {b : β}
    (h : Takes reader bytes a) (h' : Takes (next a) [] b) : Takes (reader >>= next) bytes b := by
  have hbind := h.bind h'
  rwa [List.append_nil] at hbind

theorem takes_u8 (b : UInt8) : Takes u8 [b] b :=
  fun _ => rfl

theorem takes_u16 (n : UInt16) : Takes u16 (u16Bytes n) n := by
  have hword := valueOf_u16Bytes n
  intro rest
  show some (UInt16.ofNat (valueOf (u16Bytes n)), rest) = _
  rw [hword]

theorem takes_u32 (n : UInt32) : Takes u32 (u32Bytes n) n := by
  rw [u32Bytes_eq]
  refine (takes_u16 _).bind ((takes_u16 _).last ?_)
  rw [join_u32]
  exact Takes.pure n

theorem takes_u64 (n : UInt64) : Takes u64 (u64Bytes n) n := by
  refine (takes_u32 _).bind ((takes_u32 _).last ?_)
  rw [join_u64]
  exact Takes.pure n

theorem takes_bytes {bytes : Bytes} {count : Nat} (h : bytes.length = count) :
    Takes (Reader.bytes count) bytes bytes := by
  intro rest
  subst h
  simp [Reader.bytes]

theorem takes_timesOnto {reader : Reader α} {blocks : List Bytes} {items : List α}
    (h : List.Forall₂ (Takes reader) blocks items) (done : List α) :
    Takes (timesOnto reader items.length done) blocks.flatten (done.reverse ++ items) := by
  induction h generalizing done with
  | nil =>
      rw [List.append_nil]
      exact Takes.pure _
  | @cons block item blocks items hfirst _ ih =>
      have hrest := ih (item :: done)
      rw [List.reverse_cons, List.append_assoc] at hrest
      exact hfirst.bind hrest

/-- A reader that is used several times takes what it takes each time. -/
theorem takes_times {reader : Reader α} {blocks : List Bytes} {items : List α}
    (h : List.Forall₂ (Takes reader) blocks items) :
    Takes (times items.length reader) blocks.flatten items :=
  takes_timesOnto h []

/-- A count of two bytes, and then so many items. -/
theorem takes_counted {reader : Reader α} {blocks : List Bytes} {items : List α}
    (h : List.Forall₂ (Takes reader) blocks items) (hcount : items.length ≤ 65535) :
    Takes (counted reader) (u16Bytes (UInt16.ofNat items.length) ++ blocks.flatten) items := by
  refine (takes_u16 _).bind ?_
  have hlength : (UInt16.ofNat items.length).toNat = items.length := by
    rw [UInt16.toNat_ofNat', Nat.mod_eq_of_lt (by omega)]
  rw [hlength]
  exact takes_times h

theorem takes_counted_nil (reader : Reader α) : Takes (counted reader) (u16Bytes 0) [] := by
  have htakes := @takes_counted α reader [] [] .nil (Nat.zero_le _)
  rwa [List.flatten_nil, List.append_nil] at htakes

theorem takes_counted_one {reader : Reader α} {block : Bytes} {a : α} (h : Takes reader block a) :
    Takes (counted reader) (u16Bytes 1 ++ block) [a] := by
  have htakes := @takes_counted α reader [block] [a] (.cons h .nil) (Nat.le_of_ble_eq_true rfl)
  rwa [List.flatten_singleton] at htakes

end Reader

end Unscramble.ClassFile
