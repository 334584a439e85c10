/-
Removing redundant jumps once and again.  Whether a jump goes is decided by the markers that follow it in the given
code.  So a jump in front of another one that goes is kept although it may then stand in front of its own target, and a
second run removes it.  Where no kept jump comes to stand like this, a second run changes nothing.
-/
import Unscramble.Cleanup.Layout

namespace Unscramble

namespace RedundantGoto

variable {code rest : List Instr} {instr : Instr} {target l : Label}

theorem isRedundant_eq_true : isRedundant instr rest = true ↔
    ∃ target, instr = .jump Opcode.goto target ∧ landsAt target rest = true := by
  constructor
  · intro h
    unfold isRedundant at h
    split at h
    · next op target =>
        rw [Bool.and_eq_true, beq_iff_eq] at h
        exact ⟨target, by rw [h.1], h.2⟩
    · cases h
  · rintro ⟨target, rfl, h⟩
    simp [isRedundant, h]

theorem isRedundant_goto : isRedundant (.jump Opcode.goto target) rest = landsAt target rest := by
  simp [isRedundant]

theorem landsAt_cons_marker (h : instr.isMarker = true) :
    landsAt l (instr :: rest) = true ↔ instr = .label l ∨ landsAt l rest = true := by
  simp only [landsAt, List.takeWhile_cons_of_pos h, List.contains_iff_mem, List.mem_cons]
  exact or_congr_left eq_comm

theorem landsAt_cons_instr (h : instr.isMarker = false) : landsAt l (instr :: rest) = false := by
  simp [landsAt, List.takeWhile_cons_of_neg, h]

theorem remove_cons_of_redundant (h : isRedundant instr rest = true) : remove (instr :: rest) = remove rest := by
  rw [remove, if_pos h]

theorem remove_cons_of_kept (h : isRedundant instr rest = false) :
    remove (instr :: rest) = instr :: remove rest := by
  rw [remove, h, if_neg Bool.false_ne_true]

/-- The labels in front of the first instruction that a run keeps. -/
def landings : List Instr → List Label
  | [] => []
  | .label l :: rest => l :: landings rest
  | .line _ :: rest => landings rest
  | instr :: rest => if isRedundant instr rest then landings rest else []

theorem landsAt_remove : landsAt l (remove code) = true ↔ l ∈ landings code := by
  induction code with
  | nil => simp [landsAt, remove, landings]
  | cons instr rest ih =>
      cases hredundant : isRedundant instr rest with
      | true =>
          obtain ⟨target, rfl, -⟩ := isRedundant_eq_true.1 hredundant
          rw [remove_cons_of_redundant hredundant, ih]
          simp [landings, hredundant]
      | false =>
          rw [remove_cons_of_kept hredundant]
          cases hmarker : instr.isMarker with
          | true =>
              rw [landsAt_cons_marker hmarker, ih]
              cases instr with
              | label l' => simp [landings, eq_comm]
              | line number => simp [landings]
              | _ => cases hmarker
          | false =>
              rw [landsAt_cons_instr hmarker]
              cases instr with
              | label l' => cases hmarker
              | line number => cases hmarker
              | _ => simp [landings, hredundant]

/-- A second run spares the first instruction if a jump that comes to stand in front of its target has stood there
before. -/
theorem remove_remove_cons_iff : remove (remove (instr :: rest)) = remove (instr :: rest) ↔
    (∀ target, instr = .jump Opcode.goto target → target ∈ landings rest → landsAt target rest = true) ∧
      remove (remove rest) = remove rest := by
  cases hredundant : isRedundant instr rest with
  | true =>
      obtain ⟨target, rfl, hlands⟩ := isRedundant_eq_true.1 hredundant
      rw [remove_cons_of_redundant hredundant]
      refine ⟨fun h => ⟨fun target' heq _ => ?_, h⟩, And.right⟩
      cases heq
      exact hlands
  | false =>
      rw [remove_cons_of_kept hredundant]
      cases hagain : isRedundant instr (remove rest) with
      | true =>
          -- the second run removes this jump, so it returns too few instructions
          obtain ⟨target, rfl, hlands⟩ := isRedundant_eq_true.1 hagain
          rw [remove_cons_of_redundant hagain]
          constructor
          · intro h
            have hshort := (remove_sublist (remove rest)).length_le
            rw [h, List.length_cons] at hshort
            omega
          · rintro ⟨hfirst, -⟩
            rw [isRedundant_goto, hfirst target rfl (landsAt_remove.1 hlands)] at hredundant
            cases hredundant
      | false =>
          rw [remove_cons_of_kept hagain, List.cons.injEq, eq_self_iff_true, true_and]
          refine ⟨fun h => ⟨fun target heq hlands => ?_, h⟩, And.right⟩
          rw [heq, isRedundant_goto, landsAt_remove.2 hlands] at hagain
          cases hagain

/-- What a run leaves has no redundant jump exactly when no jump of the code comes to stand in front of its target by
the run: a jump whose target is behind other jumps that go, with no kept instruction between, must land there in the
given code too. -/
theorem remove_remove_iff : remove (remove code) = remove code ↔
    ∀ target rest, (.jump Opcode.goto target :: rest) <:+ code → target ∈ landings rest →
      landsAt target rest = true := by
  induction code with
  | nil => simp [remove]
  | cons instr rest ih =>
      rw [remove_remove_cons_iff, ih]
      constructor
      · rintro ⟨hfirst, hrest⟩ target after hsuffix hlands
        rcases List.suffix_cons_iff.1 hsuffix with heq | hsuffix
        · obtain ⟨rfl, rfl⟩ := List.cons.inj heq
          exact hfirst target rfl hlands
        · exact hrest target after hsuffix hlands
      · intro h
        refine ⟨fun target heq => h target rest ?_, fun target after hsuffix => ?_⟩
        · exact heq ▸ List.suffix_refl _
        · exact h target after (hsuffix.trans (List.suffix_cons instr rest))

/-- The first jump is followed by a jump that goes, and then stands in front of its target. -/
theorem nested_removed_again :
    remove (remove [.jump Opcode.goto ⟨1⟩, .jump Opcode.goto ⟨0⟩, .label ⟨0⟩, .label ⟨1⟩, .simple Opcode.vreturn]) ≠
      remove [.jump Opcode.goto ⟨1⟩, .jump Opcode.goto ⟨0⟩, .label ⟨0⟩, .label ⟨1⟩, .simple Opcode.vreturn] := by
  decide

end RedundantGoto

end Unscramble
