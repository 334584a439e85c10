/-
The computed limits are sufficient.  Along a path through a method the values are known more exactly than in the frames
of an analysis, where paths have met.  But each of those frames lies above what comes to its instruction, and where
nothing unknown is on its stack, it has the very stack of the path.  So all instructions of the path can be executed, as
they are on the frames, and no stack is higher than the highest one of the frames.
-/
import Unscramble.Cleanup.Limits
import Unscramble.Proofs.Fixpoint
import Unscramble.Proofs.RelatedFrames
import Unscramble.Proofs.StraightLine

namespace Unscramble

namespace Flow

/-- How a path goes on: an instruction is executed and another one follows it, or an exception comes to the handler of a
range. -/
inductive Move where
  | next (instr : Instr) (effect : Effect) (target : Nat)
  | thrown (range : HandlerRange)

/-- The moves lead along control flow from one instruction to another. -/
def Path (flow : Flow) : Nat → List Move → Nat → Prop
  | index, [], last => index = last
  | index, .next instr effect target :: moves, last =>
      flow.code[index]? = some (instr, effect) ∧
        (∃ next, flow.successors index instr effect = .ok next ∧ target ∈ next) ∧ flow.Path target moves last
  | index, .thrown range :: moves, last =>
      range ∈ flow.handlers ∧ range.covers index = true ∧ flow.Path range.handler moves last

/-- Executes the instructions of a path that starts at an index with some frame. -/
def carry : Nat → Frame Kind → List Move → Except FrameFault (Frame Kind)
  | _, frame, [] => .ok frame
  | index, frame, .next instr effect target :: moves => do
      let after ← frame.execute Domain.kinds index instr effect
      carry target after moves
  | _, frame, .thrown range :: moves => carry range.handler (frame.atHandler Domain.kinds) moves

end Flow

/-- The local slots that an instruction reads or writes. -/
def Instr.localSlots : Instr → List Nat
  | .var op slot =>
      if op ∈ [Opcode.lload, Opcode.dload, Opcode.lstore, Opcode.dstore] then [slot.toNat, slot.toNat + 1]
      else [slot.toNat]
  | .iinc slot _ => [slot.toNat]
  | _ => []

/-- The limits are sufficient for every path through a method. -/
structure Limits.Suffice (limits : Limits) (m : MethodDecl) : Prop where
  /-- There are slots for the receiver and the parameters. -/
  parameters : ∃ params, Descriptor.parameters m.descriptor = .ok params ∧
    (if m.isStatic then 0 else 1) + TypeDesc.totalSlots params ≤ limits.maxLocals.toNat
  /-- The path can be executed and has come with the stack of the analysis to an instruction that can be executed, too.
  The stack is not too high, and the instruction stays within the local slots. -/
  paths : m.code ≠ [] → ∃ frames flow entry, (analyze Domain.kinds m).result = .ok frames ∧
    Flow.ofMethod m = .ok flow ∧ Analysis.entryFrame Domain.kinds m = .ok entry ∧
    ∀ moves index, flow.Path 0 moves index → ∃ frame present instr effect after,
      Flow.carry 0 entry moves = .ok frame ∧ frames[index]? = some (some present) ∧ frame.stack = present.stack ∧
        frame.stackSlots Domain.kinds ≤ limits.maxStack.toNat ∧ flow.code[index]? = some (instr, effect) ∧
        frame.execute Domain.kinds index instr effect = .ok after ∧
        ∀ slot ∈ instr.localSlots, slot < limits.maxLocals.toNat

namespace Frame

/-- Values of which something is known absorb themselves only. -/
theorem eq_of_absorbs {upper lower : List Kind} (h : List.Forall₂ Domain.kinds.Absorbs upper lower)
    (hknown : Kind.uninitialized ∉ upper) : upper = lower := by
  induction h with
  | nil => rfl
  | @cons kind kind' rest rest' hfirst _ ih =>
      rw [List.mem_cons, not_or] at hknown
      rcases (Domain.kinds_absorbs_iff kind kind').1 hfirst with rfl | rfl
      · rw [ih hknown.2]
      · exact absurd rfl hknown.1

end Frame

namespace Analysis

section Paths

variable {flow : Flow} {entry : Frame Kind} {q : Progress Kind} {Good : Nat → Frame Kind → Prop}
  (hsteady : Steady Domain.kinds Good (Frame.Above Domain.kinds) flow entry q) (hpending : q.pending = [])
  (hknown : ∀ index frame, q.frameAt index = some frame → .uninitialized ∉ frame.stack)

theorem holds_of_above {index : Nat} {upper lower : Frame Kind} (h : q.Holds (Frame.Above Domain.kinds) index upper)
    (habove : upper.Above Domain.kinds lower) : q.Holds (Frame.Above Domain.kinds) index lower := by
  have hgood : ∀ f : Frame Kind, f.Good fun _ => True := fun f => ⟨fun _ _ => trivial, fun _ _ => trivial⟩
  obtain ⟨present, hpresent, hfirst⟩ := h
  exact ⟨present, hpresent,
    Frame.Above.trans Domain.kinds_lawful (hgood present) (hgood upper) (hgood lower) hfirst habove⟩

include hsteady hpending hknown

/-- One step of a path: a frame below that of the analysis has its stack, so the instruction can be executed on it, and
what comes of it lies again below the frames that follow. -/
theorem Steady.executes {index : Nat} {frame : Frame Kind} (hholds : q.Holds (Frame.Above Domain.kinds) index frame) :
    ∃ instr effect after next, flow.code[index]? = some (instr, effect) ∧
      frame.execute Domain.kinds index instr effect = .ok after ∧ flow.successors index instr effect = .ok next ∧
      (∀ target ∈ next, q.Holds (Frame.Above Domain.kinds) target after) ∧
      ∀ range ∈ flow.handlers, range.covers index = true →
        q.Holds (Frame.Above Domain.kinds) range.handler (frame.atHandler Domain.kinds) := by
  obtain ⟨present, hpresent, habove⟩ := hholds
  obtain ⟨instr, effect, upper, next, hcode, hupper, hnext, htargets, hhandlers⟩ :=
    hsteady.followed index present hpresent (by simp [hpending])
  obtain ⟨after, hafter, hbelow⟩ := Frame.execute_related Domain.kinds_kinded habove
    (Frame.sizes_of_known Domain.kinds_kinded habove.2 (hknown index present hpresent)) hupper
  refine ⟨instr, effect, after, next, hcode, hafter, hnext, fun target htarget => ?_, fun range hrange hcovers => ?_⟩
  · exact holds_of_above (htargets target htarget).2 hbelow
  · refine holds_of_above (hhandlers range hrange hcovers) ⟨habove.1, ?_⟩
    exact Frame.forall₂_absorbs_refl Domain.kinds_lawful fun _ _ => trivial

/-- A path of any length can be executed. -/
theorem Steady.carries {moves : List Flow.Move} {index last : Nat} {frame : Frame Kind}
    (hholds : q.Holds (Frame.Above Domain.kinds) index frame) (hpath : flow.Path index moves last) :
    ∃ frame', Flow.carry index frame moves = .ok frame' ∧ q.Holds (Frame.Above Domain.kinds) last frame' := by
  induction moves generalizing index frame with
  | nil => exact ⟨frame, rfl, hpath ▸ hholds⟩
  | cons move moves ih =>
      obtain ⟨instr, effect, after, next, hcode, hafter, hnext, htargets, hhandlers⟩ :=
        hsteady.executes hpending hknown hholds
      cases move with
      | next instr' effect' target =>
          obtain ⟨hcode', ⟨next', hnext', htarget⟩, hrest⟩ := hpath
          obtain ⟨rfl, rfl⟩ := Prod.mk.inj (Option.some.inj (hcode.symm.trans hcode'))
          obtain rfl := Except.ok.inj (hnext.symm.trans hnext')
          obtain ⟨frame', hcarry, hlast⟩ := ih (htargets target htarget) hrest
          exact ⟨frame', bind_eq_ok.2 ⟨after, hafter, hcarry⟩, hlast⟩
      | thrown range =>
          obtain ⟨hrange, hcovers, hrest⟩ := hpath
          exact ih (hhandlers range hrange hcovers) hrest

end Paths

end Analysis

namespace Limits

variable {m : MethodDecl} {limits : Limits}

theorem toNat_of_ofNat {n : Nat} {limit : UInt16} (h : ofNat n = .ok limit) : limit.toNat = n := by
  unfold ofNat at h
  split at h
  · next hlt =>
      cases h
      exact UInt16.toNat_ofNat_of_lt hlt
  · cases h

theorem stackSlots_le_highestStack {frames : Array (Option (Frame Kind))} {index : Nat} {frame : Frame Kind}
    (h : frames[index]? = some (some frame)) : frame.stackSlots Domain.kinds ≤ highestStack frames := by
  rw [highestStack, ← Array.foldl_toList]
  exact (Analysis.le_foldl_max (fun frame => frame.elim 0 (Frame.stackSlots Domain.kinds)) frames.toList 0).2
    (some frame) (List.mem_of_getElem? (Array.getElem?_toList.trans h))

/-- The code uses every slot that one of its instructions reads or writes. -/
theorem localSlots_lt {instr : Instr} {slot : Nat} (hinstr : instr ∈ m.code) (h : slot ∈ instr.localSlots) :
    slot < m.slotsUsed := by
  refine Nat.lt_of_lt_of_le ?_ (Analysis.slots_le_slotsUsed hinstr)
  cases instr with
  | var op first =>
      have hslots : MethodDecl.slotsUsed.slots (.var op first) = first.toNat +
          if op ∈ [Opcode.lload, Opcode.dload, Opcode.lstore, Opcode.dstore] then 2 else 1 := by
        simp [MethodDecl.slotsUsed.slots, or_assoc]
      rw [Instr.localSlots] at h
      rw [hslots]
      split at h
      · next hwide =>
          rw [if_pos hwide]
          rcases List.mem_pair.1 h with rfl | rfl <;> omega
      · next hnarrow =>
          rw [if_neg hnarrow, List.mem_singleton.1 h]
          omega
  | iinc first delta =>
      rw [List.mem_singleton.1 h]
      exact Nat.lt_succ_self _
  | _ => cases h

/-- The limits that are computed for a method are sufficient if nothing unknown is on the stack of a frame. -/
theorem ofMethod_suffices (h : ofMethod m = .ok limits)
    (hknown : ∀ frames, (analyze Domain.kinds m).result = .ok frames → ∀ (index : Nat) (frame : Frame Kind),
      frames[index]? = some (some frame) → Kind.uninitialized ∉ frame.stack) : limits.Suffice m := by
  obtain ⟨frames, hframes, h⟩ := bind_eq_ok.1 h
  obtain ⟨slots, hslots, h⟩ := bind_eq_ok.1 h
  obtain ⟨maxStack, hstack, h⟩ := bind_eq_ok.1 h
  obtain ⟨maxLocals, hlocals, h⟩ := bind_eq_ok.1 h
  obtain rfl := Except.ok.inj h
  obtain ⟨params, hparams, rfl⟩ := map_eq_ok.1 (mapError_eq_ok.1 hslots)
  rw [mapError_eq_ok] at hframes
  refine ⟨⟨params, hparams, ?_⟩, fun hcode => ?_⟩
  · rw [toNat_of_ofNat hlocals]
    omega
  · obtain ⟨flow, entry, q, hflow, hentry, hsteady, hpending, rfl, -⟩ :=
      Analysis.exists_steady Domain.kinds_lawful hcode hframes
    have hat : ∀ index frame, q.frameAt index = some frame → q.frames[index]? = some (some frame) :=
      fun index frame hframe => Option.join_eq_some_iff.1 hframe
    have hclean : ∀ index frame, q.frameAt index = some frame → .uninitialized ∉ frame.stack :=
      fun index frame hframe => hknown q.frames hframes index frame (hat index frame hframe)
    refine ⟨q.frames, flow, entry, hframes, hflow, hentry, fun moves index hpath => ?_⟩
    obtain ⟨frame, hcarry, hholds⟩ := hsteady.carries hpending hclean hsteady.entry hpath
    obtain ⟨instr, effect, after, next, hinstr, hafter, -⟩ := hsteady.executes hpending hclean hholds
    obtain ⟨present, hpresent, habove⟩ := hholds
    have hsame := Frame.eq_of_absorbs habove.2 (hclean index present hpresent)
    refine ⟨frame, present, instr, effect, after, hcarry, hat index present hpresent, hsame.symm, ?_, hinstr, hafter,
      fun slot hslot => ?_⟩
    · rw [toNat_of_ofNat hstack, Frame.stackSlots, ← hsame]
      exact stackSlots_le_highestStack (hat index present hpresent)
    · have hused := localSlots_lt
        (List.mem_of_getElem? ((Flow.ofMethod_describes hflow).getElem?_code hinstr)) hslot
      rw [toNat_of_ofNat hlocals]
      omega

section Examples

/-- Where the two branches meet, a slot holds the first half of a long value or an int. -/
def branching : MethodDecl where
  name := "branching"
  descriptor := "(JI)J"
  access := Access.staticBit
  code := [.label ⟨0⟩, .var Opcode.iload 2, .jump Opcode.ifeq ⟨1⟩, .var Opcode.lload 0, .var Opcode.lstore 3,
    .jump Opcode.goto ⟨2⟩, .label ⟨1⟩, .var Opcode.iload 2, .var Opcode.istore 3, .label ⟨2⟩, .var Opcode.lload 0,
    .simple Opcode.dup2, .simple Opcode.lmul, .simple Opcode.lreturn, .label ⟨3⟩, .simple Opcode.athrow]
  tries := [⟨⟨0⟩, ⟨3⟩, ⟨3⟩, none⟩]

theorem branching_suffices :
    ofMethod branching = .ok ⟨4, 5⟩ ∧
      (∀ frames, (analyze Domain.kinds branching).result = .ok frames → ∀ (index : Nat) (frame : Frame Kind),
        frames[index]? = some (some frame) → Kind.uninitialized ∉ frame.stack) ∧
      Suffice ⟨4, 5⟩ branching := by
  have hlimits : (ofMethod branching).toOption = some ⟨4, 5⟩ := by decide +kernel
  have hframes : (analyze Domain.kinds branching).result.toOption.all (fun frames => frames.toList.all fun frame =>
      frame.all fun frame => !frame.stack.contains .uninitialized) = true := by decide +kernel
  have hknown : ∀ frames, (analyze Domain.kinds branching).result = .ok frames →
      ∀ (index : Nat) (frame : Frame Kind), frames[index]? = some (some frame) → Kind.uninitialized ∉ frame.stack := by
    intro frames hresult index frame hframe
    rw [hresult] at hframes
    have hentry := List.all_eq_true.1 hframes (some frame) (List.mem_of_getElem? (Array.getElem?_toList.trans hframe))
    simpa using hentry
  cases hresult : ofMethod branching with
  | error reason => simp [hresult, Except.toOption] at hlimits
  | ok limits =>
      rw [hresult] at hlimits
      obtain rfl := Option.some.inj hlimits
      exact ⟨rfl, hknown, ofMethod_suffices hresult hknown⟩

end Examples

end Limits

end Unscramble
