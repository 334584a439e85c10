/-
The operands of an instruction.  Where an instruction has the length that the scan finds for it, its operands lie
within its own bytes: what is read there does not depend on the code behind it, and the table of targets fails only
for a target before the code.
-/
import Unscramble.Proofs.SwitchReading

namespace Unscramble.ClassFile.Code

section Blocks

variable {block : Bytes}

/-- A word within a block, whatever stands behind it. -/
theorem exists_u16At {place : Nat} (h : place + 2 ≤ block.length) :
    ∃ n, ∀ behind, u16At (block ++ behind) place = .ok n := by
  have hlength : 2 ≤ (block.drop place).length := by
    rw [List.length_drop]
    omega
  have hdrop : ∀ behind, (block ++ behind).drop place = block.drop place ++ behind := fun behind =>
    List.drop_append_of_le_length (by omega)
  simp only [u16At, u16At?, hdrop]
  generalize block.drop place = own at hlength
  rcases own with _ | ⟨a, _ | ⟨b, own⟩⟩
  · exact absurd hlength (by decide)
  · exact absurd hlength (by simp)
  · exact ⟨_, fun _ => rfl⟩

/-- Bytes enough for so many words begin with them. -/
theorem exists_wordsOf {count : Nat} (h : 4 * count ≤ block.length) :
    ∃ values rest, values.length = count ∧ block = wordsOf values ++ rest := by
  induction count generalizing block with
  | zero => exact ⟨[], block, rfl, rfl⟩
  | succ count ih =>
      obtain ⟨a, b, c, d, block, rfl⟩ : ∃ a b c d rest, block = a :: b :: c :: d :: rest := by
        rcases block with _ | ⟨a, _ | ⟨b, _ | ⟨c, _ | ⟨d, rest⟩⟩⟩⟩
        case cons.cons.cons.cons => exact ⟨a, b, c, d, rest, rfl⟩
        all_goals
          simp only [List.length_cons, List.length_nil] at h
          omega
      obtain ⟨values, rest, rfl, rfl⟩ := @ih block (by
        simp only [List.length_cons] at h
        omega)
      refine ⟨(UInt32.ofNat (valueOf [a, b, c, d])).toInt32 :: values, rest, rfl, ?_⟩
      rw [wordsOf_cons, List.append_assoc]
      show _ = u32Bytes (UInt32.ofNat (valueOf [a, b, c, d])) ++ _
      rw [u32Bytes_valueOf]
      rfl

end Blocks

section Fitting

variable {offset : Nat} {op : Opcode} {operands behind : Bytes}

/-- The piece has the length that the scan finds. -/
def Piece.Fits (p : Piece) : Prop :=
  instrLength p.offset p.op p.code = .ok p.bytes.length

theorem Piece.Fits.length_operands {n : Nat} (h : Piece.Fits ⟨offset, op, operands, behind⟩)
    (hop : fixedLength? op = some (n + 1)) : operands.length = n :=
  (Nat.succ.inj (Except.ok.inj ((instrLength_of_fixed hop _).symm.trans h))).symm

/-- The words of a switch, behind its code and the filler bytes. -/
theorem Piece.exists_words {p : Piece} {count : Nat} (h : 1 + padding p.offset + 4 * count ≤ p.bytes.length) :
    ∃ front values rest, front.length = 1 + padding p.offset ∧ values.length = count ∧
      ∀ behind, p.bytes ++ behind = front ++ (wordsOf values ++ (rest ++ behind)) := by
  obtain ⟨values, rest, hcount, hwords⟩ := @exists_wordsOf (p.bytes.drop (1 + padding p.offset)) count (by
    rw [List.length_drop]
    omega)
  refine ⟨p.bytes.take (1 + padding p.offset), values, rest, ?_, hcount, fun behind => ?_⟩
  · rw [List.length_take]
    omega
  · rw [← List.append_assoc (wordsOf values), ← hwords, ← List.append_assoc, List.take_append_drop]

theorem Piece.Fits.tableSwitch (h : Piece.Fits ⟨offset, Opcode.tableSwitch, operands, behind⟩) :
    ∃ d low high ds, ∀ behind,
      switchTable ⟨offset, Opcode.tableSwitch, operands, behind⟩ = .ok ⟨d, [low, high], ds⟩ := by
  obtain ⟨low, hlow, hrest⟩ := bind_eq_ok.1 h
  obtain ⟨high, hhigh, hrest⟩ := bind_eq_ok.1 hrest
  dsimp only at hrest
  split at hrest
  · cases hrest
  next hrange =>
    have hlength : 1 + padding offset + 12 + (high.toInt - low.toInt + 1).toNat * 4 = operands.length + 1 :=
      Except.ok.inj hrest
    obtain ⟨front, values, rest, hfront, hcount, hcode⟩ := @Piece.exists_words
      ⟨offset, Opcode.tableSwitch, operands, behind⟩ ((high.toInt - low.toInt + 1).toNat + 3) (by
        show 1 + padding offset + 4 * _ ≤ operands.length + 1
        omega)
    obtain ⟨d, low', high', ds, rfl⟩ : ∃ d low high ds, values = d :: low :: high :: ds := by
      rcases values with _ | ⟨d, _ | ⟨low, _ | ⟨high, ds⟩⟩⟩ <;> simp at hcount
      exact ⟨d, low, high, ds, rfl⟩
    -- the bounds that give the length are those of the table
    have hlow' := @i32At_wordsOf front (rest ++ behind) [d] (high' :: ds) low' (1 + padding offset + 4)
      (by rw [hfront]; rfl)
    have hhigh' := @i32At_wordsOf front (rest ++ behind) [d, low'] ds high' (1 + padding offset + 8)
      (by rw [hfront]; rfl)
    rw [List.singleton_append, ← hcode] at hlow'
    rw [List.cons_append, List.singleton_append, ← hcode] at hhigh'
    obtain rfl := Except.ok.inj (hlow'.symm.trans hlow)
    obtain rfl := Except.ok.inj (hhigh'.symm.trans hhigh)
    refine ⟨d, low', high', ds, fun behind => switchTable_tableSwitch rfl hfront (hcode behind) ?_⟩
    simp only [List.length_cons] at hcount
    omega

theorem Piece.Fits.lookupSwitch (h : Piece.Fits ⟨offset, Opcode.lookupSwitch, operands, behind⟩) :
    ∃ table, ∀ behind, switchTable ⟨offset, Opcode.lookupSwitch, operands, behind⟩ = .ok table := by
  obtain ⟨pairs, hpairs, hrest⟩ := bind_eq_ok.1 h
  split at hrest
  · cases hrest
  next hrange =>
    have hlength : 1 + padding offset + 8 + pairs.toInt.toNat * 8 = operands.length + 1 := Except.ok.inj hrest
    obtain ⟨front, values, rest, hfront, hcount, hcode⟩ := @Piece.exists_words
      ⟨offset, Opcode.lookupSwitch, operands, behind⟩ (pairs.toInt.toNat * 2 + 2) (by
        show 1 + padding offset + 4 * _ ≤ operands.length + 1
        omega)
    obtain ⟨d, count, entries, rfl⟩ : ∃ d count entries, values = d :: count :: entries := by
      rcases values with _ | ⟨d, _ | ⟨count, entries⟩⟩ <;> simp at hcount
      exact ⟨d, count, entries, rfl⟩
    have hpairs' := @i32At_wordsOf front (rest ++ behind) [d] entries count (1 + padding offset + 4)
      (by rw [hfront]; rfl)
    rw [List.singleton_append, ← hcode] at hpairs'
    obtain rfl := Except.ok.inj (hpairs'.symm.trans hpairs)
    simp only [List.length_cons] at hcount
    exact ⟨_, fun behind => switchTable_lookupSwitch rfl hfront (hcode behind) (by omega)⟩

/-- The table of a switch is read from its own bytes. -/
theorem Piece.Fits.exists_table (h : Piece.Fits ⟨offset, op, operands, behind⟩) (hop : isSwitch op = true) :
    ∃ table, ∀ behind, switchTable ⟨offset, op, operands, behind⟩ = .ok table := by
  rw [isSwitch, Bool.or_eq_true, beq_iff_eq, beq_iff_eq] at hop
  rcases hop with rfl | rfl
  · obtain ⟨d, low, high, ds, htable⟩ := h.tableSwitch
    exact ⟨_, htable⟩
  · exact h.lookupSwitch

/-- The table of targets reads distances from the own bytes of an instruction. -/
theorem Piece.Fits.exists_distances (h : Piece.Fits ⟨offset, op, operands, behind⟩) :
    ∃ distances : List Int, ∀ behind,
      branchTargets ⟨offset, op, operands, behind⟩ = distances.mapM (targetOf offset) := by
  have hshort : ∀ op, isShortBranch op = true → fixedLength? op = some 3 := by decide +kernel
  have hlong : ∀ op, (op == Opcode.gotoW || op == Opcode.jsrW) = true → fixedLength? op = some 5 := by decide +kernel
  by_cases hswitch : isSwitch op = true
  · obtain ⟨table, htable⟩ := h.exists_table hswitch
    refine ⟨(table.fallback :: table.targets).map Int32.toInt, fun behind => ?_⟩
    rw [branchTargets, if_pos hswitch, htable, List.mapM_map]
    rfl
  by_cases hbranch : isShortBranch op = true
  · obtain ⟨high, low, rfl⟩ := List.length_eq_two.1 (h.length_operands (hshort op hbranch))
    refine ⟨[(UInt16.ofNat (valueOf [high, low])).toInt16.toInt], fun behind => ?_⟩
    rw [branchTargets, if_neg hswitch, branchDistance?, if_pos hbranch, List.mapM_cons]
    rfl
  by_cases hjump : (op == Opcode.gotoW || op == Opcode.jsrW) = true
  · obtain ⟨n, hn⟩ : ∃ n, ∀ behind, i32At (op :: operands ++ behind) 1 = .ok n := by
      have hlength := h.length_operands (hlong op hjump)
      rcases operands with _ | ⟨a, _ | ⟨b, _ | ⟨c, _ | ⟨d, operands⟩⟩⟩⟩ <;> simp at hlength
      exact ⟨_, fun _ => rfl⟩
    refine ⟨[n.toInt], fun behind => ?_⟩
    rw [branchTargets, if_neg hswitch, branchDistance?, if_neg hbranch, if_pos hjump, Piece.code, hn, List.mapM_cons]
    rfl
  · refine ⟨[], fun behind => ?_⟩
    rw [branchTargets, if_neg hswitch, branchDistance?, if_neg hbranch, if_neg hjump]
    rfl

/-- The targets of an instruction that fits are unknown only if one lies before the code. -/
theorem Piece.Fits.beforeStart {p : Piece} {reason : CodeFault} (h : p.Fits)
    (htargets : branchTargets p = .error reason) : reason = .beforeStart := by
  obtain ⟨offset, op, operands, behind⟩ := p
  obtain ⟨distances, hdistances⟩ := h.exists_distances
  rw [hdistances] at htargets
  obtain ⟨distance, -, htarget⟩ := mapM_eq_error htargets
  rw [targetOf] at htarget
  split at htarget
  · exact (Except.error.inj htarget).symm
  · cases htarget

end Fitting

end Unscramble.ClassFile.Code
