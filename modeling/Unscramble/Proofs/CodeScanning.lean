/-
The scan of a body and the decoder of its instructions.  The scan finds the lengths and the targets of the
instructions by tables of its own, and the decoder reads the operands by another one.  They agree: where the scan
passes an instruction and its targets have labels, the decoder finds all its operands within the bytes that the scan
cuts, and refuses it for a reference that the pool does not resolve or for a code that is not supported.
-/
import Mathlib.Data.List.Perm.Basic
import Unscramble.Proofs.Operands

namespace Unscramble.ClassFile.Code

open scoped List

section Scan

variable {offset : Nat} {code rest : Bytes} {pieces : List Piece}

/-- From an offset on the code is made of the pieces and the rest, as the tables of lengths and targets have it. -/
inductive Scans (rest : Bytes) : Nat → Bytes → List Piece → Prop where
  | nil (offset : Nat) : Scans rest offset rest []
  | cons {offset : Nat} {op : Opcode} {operands code : Bytes} {found : List Nat} {pieces : List Piece}
      (hlength : instrLength offset op (op :: operands ++ code) = .ok (operands.length + 1))
      (htargets : branchTargets ⟨offset, op, operands, code⟩ = .ok found)
      (hrest : Scans rest (offset + operands.length + 1) code pieces) :
      Scans rest offset (op :: operands ++ code) (⟨offset, op, operands, code⟩ :: pieces)

/-- Why the scan does not pass an instruction: its length is unknown, its bytes are missing, or a target lies
before the code. -/
inductive Stops (offset : Nat) (op : Opcode) (rest : Bytes) : CodeFault → Prop where
  | unknown {reason : CodeFault} (h : instrLength offset op (op :: rest) = .error reason) : Stops offset op rest reason
  | truncated {size : Nat} (h : instrLength offset op (op :: rest) = .ok size) (hsize : rest.length + 1 < size) :
      Stops offset op rest (.length offset)
  | target {size : Nat} (h : instrLength offset op (op :: rest) = .ok (size + 1)) (hsize : size ≤ rest.length)
      (htargets : branchTargets ⟨offset, op, rest.take size, rest.drop size⟩ = .error .beforeStart) :
      Stops offset op rest .beforeStart

theorem instrLength_pos {op : Opcode} {input : Bytes} {size : Nat} (h : instrLength offset op input = .ok size) :
    0 < size := by
  have hfixed : ∀ op : Opcode, ∀ n ∈ fixedLength? op, 0 < n := by decide +kernel
  unfold instrLength at h
  split at h
  · obtain ⟨low, -, h⟩ := bind_eq_ok.1 h
    obtain ⟨high, -, h⟩ := bind_eq_ok.1 h
    dsimp only at h
    split at h
    · cases h
    · have := Except.ok.inj h
      omega
  split at h
  · obtain ⟨pairs, -, h⟩ := bind_eq_ok.1 h
    split at h
    · cases h
    · have := Except.ok.inj h
      omega
  split at h
  · split at h
    · obtain rfl := Except.ok.inj h
      split <;> decide
    · cases h
  · split at h
    · next length hlength =>
        obtain rfl := Except.ok.inj h
        exact hfixed op length hlength
    · cases h

/-- What the loop over the bytes does from any state. -/
theorem cut_spec (offset : Nat) (input : Bytes) (done : List Piece) (found : List Nat) :
    match cut offset input done found with
    | .ok (pieces, branches) => ∃ later, pieces = done.reverse ++ later ∧ Scans [] offset input later ∧
        ∀ o, o ∈ branches ↔ o ∈ found ∨ ∃ p ∈ later, ∃ own, branchTargets p = .ok own ∧ o ∈ own
    | .error reason => ∃ later place op rest, Scans (op :: rest) offset input later ∧
        offset + input.length = place + rest.length + 1 ∧ Stops place op rest reason := by
  fun_induction cut offset input done found with
  | case1 offset done found => exact ⟨[], by simp, .nil offset, by simp⟩
  | case2 offset done found op rest reason hlength =>
      exact ⟨[], offset, op, rest, .nil offset, by simp; omega, .unknown hlength⟩
  | case3 offset done found op rest hlength => exact absurd (instrLength_pos hlength) (Nat.lt_irrefl 0)
  | case4 offset done found op rest size hlength operands hshort =>
      refine ⟨[], offset, op, rest, .nil offset, by simp; omega, .truncated hlength ?_⟩
      rw [List.length_take] at hshort
      omega
  | case5 offset done found op rest size hlength operands hlong piece reason htargets =>
      have hsize : size ≤ rest.length := Nat.le_trans (Nat.not_lt.1 hlong) (List.length_take_le' size rest)
      have hfits : piece.Fits := by
        have hoperands : operands.length = size := Nat.le_antisymm (List.length_take_le size rest) (Nat.not_lt.1 hlong)
        rw [Piece.Fits, Piece.code, Piece.bytes, List.cons_append, List.take_append_drop, hlength, List.length_cons,
          hoperands]
      obtain rfl := hfits.beforeStart htargets
      exact ⟨[], offset, op, rest, .nil offset, by simp; omega, .target hlength hsize htargets⟩
  | case6 offset done found op rest size hlength operands hlong piece own htargets ih =>
      have hsize : operands.length = size :=
        Nat.le_antisymm (List.length_take_le size rest) (Nat.not_lt.1 hlong)
      have hinput : op :: rest = op :: operands ++ rest.drop size := by
        rw [List.cons_append, List.take_append_drop]
      have hlength' : instrLength offset op (op :: operands ++ rest.drop size) = .ok (operands.length + 1) := by
        rw [← hinput, hsize, hlength]
      rw [hinput]
      split at ih
      · obtain ⟨later, hpieces, hscans, hbranches⟩ := ih
        refine ⟨piece :: later, by simpa using hpieces, .cons hlength' htargets (by rwa [hsize]), fun o => ?_⟩
        have hown : (∃ targets, branchTargets piece = .ok targets ∧ o ∈ targets) ↔ o ∈ own := by
          simp [piece, operands, htargets]
        rw [hbranches, List.mem_append, List.exists_mem_cons_iff, hown, or_assoc, or_left_comm]
      · obtain ⟨later, place, op', rest', hscans, hplace, hstops⟩ := ih
        refine ⟨piece :: later, place, op', rest', .cons hlength' htargets (by rwa [hsize]), ?_, hstops⟩
        rw [← hplace, List.length_append, List.length_cons]
        omega

/-- The pieces and the rest make up the code, and each piece is an instruction that starts where those before it
end and has the length of its code. -/
structure Partitions (pieces : List Piece) (code rest : Bytes) : Prop where
  joined : pieces.flatMap (·.bytes) ++ rest = code
  located : ∀ before p after, pieces = before ++ p :: after →
    p.offset = (before.flatMap (·.bytes)).length ∧ p.code = code.drop p.offset ∧
      instrLength p.offset p.op p.code = .ok p.bytes.length

theorem Scans.joined (h : Scans rest offset code pieces) : pieces.flatMap (·.bytes) ++ rest = code := by
  induction h with
  | nil => rfl
  | cons _ _ _ ih =>
      rw [List.flatMap_cons, List.append_assoc, ih]
      rfl

theorem Scans.located (h : Scans rest offset code pieces) {before after : List Piece} {p : Piece}
    (hpieces : pieces = before ++ p :: after) :
    p.offset = offset + (before.flatMap (·.bytes)).length ∧ p.code = code.drop (before.flatMap (·.bytes)).length ∧
      instrLength p.offset p.op p.code = .ok p.bytes.length := by
  induction h generalizing before with
  | nil => cases before <;> cases hpieces
  | @cons offset op operands code found pieces hlength _ _ ih =>
      cases before with
      | nil =>
          obtain ⟨rfl, -⟩ := List.cons.inj hpieces
          exact ⟨rfl, rfl, hlength⟩
      | cons first before =>
          obtain ⟨rfl, htail⟩ := List.cons.inj hpieces
          obtain ⟨hoffset, hcode, hown⟩ := ih htail
          rw [List.flatMap_cons]
          refine ⟨?_, ?_, hown⟩
          · have hlength : (Piece.bytes ⟨offset, op, operands, code⟩).length = operands.length + 1 := rfl
            rw [hoffset, List.length_append, hlength]
            omega
          · rw [hcode, List.length_append, Piece.bytes, List.drop_length_add_append]

theorem Scans.partitions (h : Scans rest 0 code pieces) : Partitions pieces code rest where
  joined := h.joined
  located := by
    intro before p after hpieces
    obtain ⟨hoffset, hcode, hlength⟩ := h.located hpieces
    rw [Nat.zero_add] at hoffset
    rw [← hoffset] at hcode
    exact ⟨hoffset, hcode, hlength⟩

/-- The starts ascend to the end of the code. -/
theorem Scans.ascending (h : Scans [] offset code pieces) :
    (pieces.map (·.offset) ++ [offset + code.length]).Pairwise (· < ·) ∧
      ∀ o ∈ pieces.map (·.offset) ++ [offset + code.length], offset ≤ o := by
  induction h with
  | nil offset => simp
  | @cons offset op operands code found pieces _ _ _ ih =>
      obtain ⟨hpairwise, hle⟩ := ih
      have hstop : offset + operands.length + 1 + code.length = offset + (op :: operands ++ code).length := by
        rw [List.length_append, List.length_cons]
        omega
      rw [hstop] at hpairwise hle
      have hlt : ∀ o ∈ pieces.map (·.offset) ++ [offset + (op :: operands ++ code).length], offset < o := fun o ho =>
        Nat.lt_of_le_of_lt (Nat.le_add_right offset operands.length) (hle o ho)
      exact ⟨.cons hlt hpairwise, List.forall_mem_cons.2 ⟨Nat.le_refl _, fun o ho => Nat.le_of_lt (hlt o ho)⟩⟩

/-- A piece that the scan passes, with its targets. -/
structure Passes (p : Piece) (found : List Nat) : Prop where
  fits : p.Fits
  targets : branchTargets p = .ok found

theorem Scans.passes (h : Scans rest offset code pieces) : ∀ p ∈ pieces, ∃ found, Passes p found := by
  induction h with
  | nil => exact nofun
  | cons hlength htargets _ ih => exact List.forall_mem_cons.2 ⟨⟨_, hlength, htargets⟩, ih⟩

end Scan

section Outcomes

variable {pool : ConstantPool} {labels : Labels} {offset : Nat} {op : Opcode} {operands behind : Bytes}
  {found : List Nat}

/-- Why an instruction that the scan passes is refused: the pool does not resolve its operand, or its code is not
supported. -/
inductive Refuses (pool : ConstantPool) (p : Piece) : CodeFault → Prop where
  | shortConstant {index : UInt8} {reason : PoolFault} (hop : p.op = Opcode.ldc) (hindex : p.bytes[1]? = some index)
      (h : pool.constant index.toUInt16 = .error reason) : Refuses pool p (.constant reason)
  | longConstant {index : UInt16} {reason : PoolFault} (hop : p.op = Opcode.ldcW ∨ p.op = Opcode.ldc2W)
      (hindex : u16At p.bytes 1 = .ok index) (h : pool.constant index = .error reason) :
      Refuses pool p (.constant reason)
  | field {index : UInt16} {reason : PoolFault} (hop : p.op.between Opcode.getStatic Opcode.putField = true)
      (hindex : u16At p.bytes 1 = .ok index) (h : pool.memberRef index = .error reason) :
      Refuses pool p (.fieldRef reason)
  | method {index : UInt16} {reason : PoolFault}
      (hop : p.op.between Opcode.invokeVirtual Opcode.invokeInterface = true) (hindex : u16At p.bytes 1 = .ok index)
      (h : pool.memberRef index = .error reason) : Refuses pool p (.methodRef reason)
  | type {index : UInt16} {reason : PoolFault} (hop : isTyped p.op = true) (hindex : u16At p.bytes 1 = .ok index)
      (h : pool.className index = .error reason) : Refuses pool p (.typeOperand reason)
  | arrayType {index : UInt16} {reason : PoolFault} (hop : p.op = Opcode.multiNewArray)
      (hindex : u16At p.bytes 1 = .ok index) (h : pool.className index = .error reason) :
      Refuses pool p (.arrayType reason)
  | subroutine (hop : p.op = Opcode.jsr ∨ p.op = Opcode.jsrW ∨ p.op = Opcode.ret) : Refuses pool p .subroutines
  | wideSubroutine (hop : p.op = Opcode.wide) (hinner : p.bytes[1]? = some Opcode.ret) : Refuses pool p .subroutines
  | dynamicCall (hop : p.op = Opcode.invokeDynamic) : Refuses pool p .invokeDynamic
  | wide {inner : Opcode} (hop : p.op = Opcode.wide) (hinner : p.bytes[1]? = some inner)
      (hne : inner ≠ Opcode.iinc ∧ isVar inner = false ∧ inner ≠ Opcode.ret) : Refuses pool p (.wideOpcode inner)

/-- The labels that an instruction uses are those for the offsets, in some order. -/
def Uses (labels : Labels) (found : List Nat) (used : List Label) : Prop :=
  ∃ named, List.Forall₂ (fun o label => labels.lookup o = some label) found named ∧ used ~ named

/-- From the bytes of the piece, whatever stands behind them, the decoder gives an instruction with the labels for
the offsets, or refuses the piece. -/
def Outcome (pool : ConstantPool) (labels : Labels) (p : Piece) (found : List Nat) : Prop :=
  ∃ result, (∀ behind, decodePiece pool labels { p with behind := behind } = result) ∧
    match result with
    | .ok i => i.isMarker = false ∧ Uses labels found i.targets
    | .error reason => Refuses pool p reason

theorem Outcome.of_ok {p : Piece} {i : Instr} (h : Outcome pool labels p found)
    (hdecoded : decodePiece pool labels p = .ok i) :
    (∀ behind, decodePiece pool labels { p with behind := behind } = .ok i) ∧ i.isMarker = false ∧
      Uses labels found i.targets := by
  obtain ⟨result, hresult, houtcome⟩ := h
  obtain rfl := (hresult p.behind).symm.trans hdecoded
  exact ⟨hresult, houtcome⟩

theorem Outcome.of_error {p : Piece} {reason : CodeFault} (h : Outcome pool labels p found)
    (hdecoded : decodePiece pool labels p = .error reason) : Refuses pool p reason := by
  obtain ⟨result, hresult, houtcome⟩ := h
  obtain rfl := (hresult p.behind).symm.trans hdecoded
  exact houtcome

theorem Uses.nil : Uses labels [] [] :=
  ⟨[], .nil, .nil⟩

theorem Passes.found_eq_nil (h : Passes ⟨offset, op, operands, behind⟩ found) (hop : refers op = false) : found = [] :=
  Except.ok.inj (h.targets.symm.trans (branchTargets_of_not_refers hop operands behind))

section Forms

theorem outcome_of_ok {p : Piece} (i : Instr) (h : ∀ behind, decodePiece pool labels { p with behind := behind } = .ok i)
    (hreal : i.isMarker = false) (huses : Uses labels found i.targets) : Outcome pool labels p found :=
  ⟨.ok i, h, hreal, huses⟩

/-- A reference to the pool is decoded or refused. -/
theorem outcome_of_entry {α : Type} {p : Piece} {entry : Except PoolFault α} {fault : PoolFault → CodeFault}
    {make : α → Instr}
    (hdecode : ∀ behind, decodePiece pool labels { p with behind := behind } =
      entry.mapError fault >>= fun a => pure (make a))
    (hmake : ∀ a, (make a).isMarker = false ∧ (make a).targets = [])
    (hrefuses : ∀ reason, entry = .error reason → Refuses pool p (fault reason)) : Outcome pool labels p [] := by
  cases entry with
  | error reason => exact ⟨.error (fault reason), hdecode, hrefuses reason rfl⟩
  | ok a => exact outcome_of_ok (make a) hdecode (hmake a).1 (by rw [(hmake a).2]; exact .nil)

/-- A code whose first two operands are the index of an entry of the pool. -/
theorem outcome_of_index {α : Type} {n : Nat} {entry : UInt16 → Except PoolFault α} {fault : PoolFault → CodeFault}
    (make : α → Instr) (h : Passes ⟨offset, op, operands, behind⟩ found) (hlength : fixedLength? op = some (n + 3))
    (hrefers : refers op = false)
    (hdecode : ∀ behind, decodePiece pool labels ⟨offset, op, operands, behind⟩ =
      u16At (op :: operands ++ behind) 1 >>= fun index => (entry index).mapError fault >>= fun a => pure (make a))
    (hmake : ∀ a, (make a).isMarker = false ∧ (make a).targets = [])
    (hrefuses : ∀ index reason, u16At (op :: operands) 1 = .ok index → entry index = .error reason →
      Refuses pool ⟨offset, op, operands, behind⟩ (fault reason)) :
    Outcome pool labels ⟨offset, op, operands, behind⟩ found := by
  obtain rfl := h.found_eq_nil hrefers
  have hoperands := h.fits.length_operands hlength
  obtain ⟨index, hindex⟩ := @exists_u16At (op :: operands) 1 (by rw [List.length_cons]; omega)
  refine outcome_of_entry (fun other => ?_) hmake fun reason => hrefuses index reason ?_
  · exact (hdecode other).trans (by rw [hindex]; rfl)
  · rw [← hindex [], List.append_nil]

theorem outcome_simple (h : Passes ⟨offset, op, operands, behind⟩ found) (hform : form? op = some .simple) :
    Outcome pool labels ⟨offset, op, operands, behind⟩ found := by
  obtain ⟨-, hrefers⟩ := agrees_of_form hform
  obtain rfl := h.found_eq_nil hrefers
  exact outcome_of_ok (.simple op) (decodePiece_of_form hform pool labels operands) rfl .nil

/-- The codes that include an index are decoded without any operands. -/
theorem outcome_shortVar (h : Passes ⟨offset, op, operands, behind⟩ found)
    (hform : form? op = some .shortLoad ∨ form? op = some .shortStore) :
    Outcome pool labels ⟨offset, op, operands, behind⟩ found := by
  rcases hform with hform | hform <;> obtain ⟨-, hrefers⟩ := agrees_of_form hform <;>
    obtain rfl := h.found_eq_nil hrefers
  · exact outcome_of_ok (.var (Opcode.iload + (op - Opcode.iload0) / 4) ((op - Opcode.iload0) % 4).toUInt16)
      (decodePiece_of_form hform pool labels operands) rfl .nil
  · exact outcome_of_ok (.var (Opcode.istore + (op - Opcode.istore0) / 4) ((op - Opcode.istore0) % 4).toUInt16)
      (decodePiece_of_form hform pool labels operands) rfl .nil

/-- The codes with an operand of one byte. -/
theorem outcome_byte (h : Passes ⟨offset, op, operands, behind⟩ found)
    (hform : form? op = some .byte ∨ form? op = some .newArray ∨ form? op = some .var) :
    Outcome pool labels ⟨offset, op, operands, behind⟩ found := by
  obtain ⟨hlength, hrefers⟩ : fixedLength? op = some 2 ∧ refers op = false := by
    rcases hform with hform | hform | hform <;> exact agrees_of_form hform
  obtain rfl := h.found_eq_nil hrefers
  obtain ⟨value, rfl⟩ := List.length_eq_one_iff.1 (h.fits.length_operands hlength)
  rcases hform with hform | hform | hform
  · exact outcome_of_ok (.int op value.toInt8.toInt32) (decodePiece_of_form hform pool labels [value]) rfl .nil
  · exact outcome_of_ok (.int op value.toUInt32.toInt32) (decodePiece_of_form hform pool labels [value]) rfl .nil
  · exact outcome_of_ok (.var op value.toUInt16) (decodePiece_of_form hform pool labels [value]) rfl .nil

theorem outcome_short (h : Passes ⟨offset, op, operands, behind⟩ found) (hform : form? op = some .short) :
    Outcome pool labels ⟨offset, op, operands, behind⟩ found := by
  obtain ⟨hlength, hrefers⟩ := agrees_of_form hform
  obtain rfl := h.found_eq_nil hrefers
  obtain ⟨high, low, rfl⟩ := List.length_eq_two.1 (h.fits.length_operands hlength)
  exact outcome_of_ok (.int op (UInt16.ofNat (valueOf [high, low])).toInt16.toInt32)
    (decodePiece_of_form hform pool labels [high, low]) rfl .nil

theorem outcome_increment (h : Passes ⟨offset, op, operands, behind⟩ found) (hform : form? op = some .increment) :
    Outcome pool labels ⟨offset, op, operands, behind⟩ found := by
  obtain ⟨hlength, hrefers⟩ := agrees_of_form hform
  obtain rfl := h.found_eq_nil hrefers
  obtain ⟨index, delta, rfl⟩ := List.length_eq_two.1 (h.fits.length_operands hlength)
  exact outcome_of_ok (.iinc index.toUInt16 delta.toInt8.toInt16)
    (decodePiece_of_form hform pool labels [index, delta]) rfl .nil

theorem outcome_constant (h : Passes ⟨offset, Opcode.ldc, operands, behind⟩ found) :
    Outcome pool labels ⟨offset, Opcode.ldc, operands, behind⟩ found := by
  obtain rfl := h.found_eq_nil rfl
  obtain ⟨index, rfl⟩ := List.length_eq_one_iff.1 (h.fits.length_operands rfl)
  exact outcome_of_entry (fun _ => rfl) (fun _ => ⟨rfl, rfl⟩) fun _ h => .shortConstant rfl rfl h

/-- The codes with an index of the pool. -/
theorem outcome_reference (h : Passes ⟨offset, op, operands, behind⟩ found)
    (hform : form? op = some .longConstant ∨ form? op = some .field ∨ form? op = some .type) :
    Outcome pool labels ⟨offset, op, operands, behind⟩ found := by
  rcases hform with hform | hform | hform <;> obtain ⟨hop, hlength, hrefers⟩ := agrees_of_form hform
  · exact outcome_of_index .ldc h hlength hrefers (decodePiece_of_form hform pool labels operands)
      (fun _ => ⟨rfl, rfl⟩) fun _ _ hindex h => .longConstant hop hindex h
  · exact outcome_of_index (fun entry => .field op entry.1) h hlength hrefers
      (decodePiece_of_form hform pool labels operands) (fun _ => ⟨rfl, rfl⟩) fun _ _ hindex h => .field hop hindex h
  · exact outcome_of_index (.type op) h hlength hrefers (decodePiece_of_form hform pool labels operands)
      (fun _ => ⟨rfl, rfl⟩) fun _ _ hindex h => .type hop hindex h

theorem outcome_method (h : Passes ⟨offset, op, operands, behind⟩ found) (hform : form? op = some .method) :
    Outcome pool labels ⟨offset, op, operands, behind⟩ found := by
  obtain ⟨hop, hfixed, hrefers⟩ := agrees_of_form hform
  obtain ⟨n, hlength⟩ : ∃ n, fixedLength? op = some (n + 3) := by
    rw [hfixed]
    split
    · exact ⟨2, rfl⟩
    · exact ⟨0, rfl⟩
  exact outcome_of_index (fun entry => .method op entry.1 entry.2) h hlength hrefers
    (decodePiece_of_form hform pool labels operands) (fun _ => ⟨rfl, rfl⟩) fun _ _ hindex h => .method hop hindex h

theorem outcome_multiNewArray (h : Passes ⟨offset, Opcode.multiNewArray, operands, behind⟩ found) :
    Outcome pool labels ⟨offset, Opcode.multiNewArray, operands, behind⟩ found := by
  obtain ⟨high, low, dims, rfl⟩ := List.length_eq_three.1 (h.fits.length_operands rfl)
  exact outcome_of_index (.multiNewArray · dims) h rfl rfl (fun _ => rfl) (fun _ => ⟨rfl, rfl⟩)
    fun _ _ hindex h => .arrayType rfl hindex h

/-- The distances of an instruction lead to places with labels. -/
theorem exists_names {distances : List Int32}
    (h : List.Forall₂ (fun (d : Int32) o => targetOf offset d.toInt = .ok o) distances found)
    (hlabels : ∀ o ∈ found, ∃ label, labels.lookup o = some label) :
    ∃ named, distances.mapM (fun d => jumpLabel labels offset d.toInt) = .ok named ∧
      List.Forall₂ (fun o label => labels.lookup o = some label) found named := by
  induction h with
  | nil => exact ⟨[], rfl, .nil⟩
  | @cons d o distances found hfirst _ ih =>
      obtain ⟨⟨label, hlabel⟩, hrest⟩ := List.forall_mem_cons.1 hlabels
      obtain ⟨named, hnamed, hpairs⟩ := ih hrest
      refine ⟨label :: named, ?_, .cons hlabel hpairs⟩
      rw [List.mapM_cons, jumpLabel_eq_ok hfirst hlabel, hnamed]
      rfl

theorem outcome_branch (h : Passes ⟨offset, op, operands, behind⟩ found) (hform : form? op = some .branch)
    (hlabels : ∀ o ∈ found, ∃ label, labels.lookup o = some label) :
    Outcome pool labels ⟨offset, op, operands, behind⟩ found := by
  obtain ⟨hlength, -⟩ := agrees_of_form hform
  obtain ⟨high, low, rfl⟩ := List.length_eq_two.1 (h.fits.length_operands hlength)
  have htargets := h.targets
  rw [branchTargets_branch hform] at htargets
  obtain ⟨n, hword, hrest⟩ := bind_eq_ok.1 htargets
  obtain ⟨place, hplace, hfound⟩ := bind_eq_ok.1 hrest
  obtain rfl := Except.ok.inj hfound
  obtain ⟨label, hlabel⟩ := hlabels place (List.mem_singleton_self place)
  have hdecoded : ∀ behind, decodePiece pool labels ⟨offset, op, [high, low], behind⟩ = .ok (.jump op label) := by
    intro behind
    rw [decodePiece_of_form hform]
    exact bind_eq_ok.2 ⟨n, hword, bind_eq_ok.2 ⟨label, jumpLabel_eq_ok hplace hlabel, rfl⟩⟩
  exact outcome_of_ok _ hdecoded rfl ⟨[label], .cons hlabel .nil, .refl _⟩

theorem outcome_longBranch (h : Passes ⟨offset, Opcode.gotoW, operands, behind⟩ found)
    (hlabels : ∀ o ∈ found, ∃ label, labels.lookup o = some label) :
    Outcome pool labels ⟨offset, Opcode.gotoW, operands, behind⟩ found := by
  obtain ⟨first, second, third, fourth, rfl⟩ : ∃ a b c d, operands = [a, b, c, d] := by
    have hlength := h.fits.length_operands rfl
    rcases operands with _ | ⟨a, _ | ⟨b, _ | ⟨c, _ | ⟨d, _ | ⟨e, operands⟩⟩⟩⟩⟩ <;> simp at hlength
    exact ⟨a, b, c, d, rfl⟩
  have htargets : (do return [← targetOf offset
      (UInt32.ofNat (valueOf [first, second, third, fourth])).toInt32.toInt]) = Except.ok found := h.targets
  obtain ⟨place, hplace, hfound⟩ := bind_eq_ok.1 htargets
  obtain rfl := Except.ok.inj hfound
  obtain ⟨label, hlabel⟩ := hlabels place (List.mem_singleton_self place)
  have hdecoded : ∀ behind, decodePiece pool labels
      ⟨offset, Opcode.gotoW, [first, second, third, fourth], behind⟩ = .ok (.jump Opcode.goto label) := fun behind =>
    bind_eq_ok.2 ⟨_, rfl, bind_eq_ok.2 ⟨label, jumpLabel_eq_ok hplace hlabel, rfl⟩⟩
  exact outcome_of_ok _ hdecoded rfl ⟨[label], .cons hlabel .nil, .refl _⟩

/-- The labels for the operands of a switch that the scan passes. -/
theorem Passes.switch_names {table : SwitchTable} (h : Passes ⟨offset, op, operands, behind⟩ found)
    (hop : isSwitch op = true) (htable : switchTable ⟨offset, op, operands, behind⟩ = .ok table)
    (hlabels : ∀ o ∈ found, ∃ label, labels.lookup o = some label) :
    ∃ fallback targets, jumpLabel labels offset table.fallback.toInt = .ok fallback ∧
      table.targets.mapM (fun d => jumpLabel labels offset d.toInt) = .ok targets ∧
      Uses labels found (targets ++ [fallback]) := by
  have htargets := h.targets
  rw [branchTargets, if_pos hop, htable] at htargets
  obtain ⟨named, hnamed, hpairs⟩ := exists_names (mapM_eq_ok.1 htargets) hlabels
  rw [List.mapM_cons] at hnamed
  obtain ⟨fallback, hfallback, hrest⟩ := bind_eq_ok.1 hnamed
  obtain ⟨targets, hothers, heq⟩ := bind_eq_ok.1 hrest
  obtain rfl := Except.ok.inj heq
  exact ⟨fallback, targets, hfallback, hothers, fallback :: targets, hpairs,
    List.perm_append_singleton fallback targets⟩

theorem outcome_tableSwitch (h : Passes ⟨offset, Opcode.tableSwitch, operands, behind⟩ found)
    (hlabels : ∀ o ∈ found, ∃ label, labels.lookup o = some label) :
    Outcome pool labels ⟨offset, Opcode.tableSwitch, operands, behind⟩ found := by
  obtain ⟨d, low, high, ds, htable⟩ := h.fits.tableSwitch
  obtain ⟨fallback, targets, hfallback, htargets, huses⟩ := h.switch_names rfl (htable behind) hlabels
  have hdecoded : ∀ behind, decodePiece pool labels ⟨offset, Opcode.tableSwitch, operands, behind⟩ =
      .ok (.tableSwitch low high fallback targets) := fun behind =>
    bind_eq_ok.2 ⟨_, htable behind, bind_eq_ok.2 ⟨fallback, hfallback, bind_eq_ok.2 ⟨targets, htargets, rfl⟩⟩⟩
  exact outcome_of_ok _ hdecoded rfl huses

theorem outcome_lookupSwitch (h : Passes ⟨offset, Opcode.lookupSwitch, operands, behind⟩ found)
    (hlabels : ∀ o ∈ found, ∃ label, labels.lookup o = some label) :
    Outcome pool labels ⟨offset, Opcode.lookupSwitch, operands, behind⟩ found := by
  obtain ⟨table, htable⟩ := h.fits.lookupSwitch
  obtain ⟨fallback, targets, hfallback, htargets, huses⟩ := h.switch_names rfl (htable behind) hlabels
  have hdecoded : ∀ behind, decodePiece pool labels ⟨offset, Opcode.lookupSwitch, operands, behind⟩ =
      .ok (.lookupSwitch fallback table.keys targets) := fun behind =>
    bind_eq_ok.2 ⟨table, htable behind, bind_eq_ok.2 ⟨fallback, hfallback, bind_eq_ok.2 ⟨targets, htargets, rfl⟩⟩⟩
  exact outcome_of_ok _ hdecoded rfl huses

/-- The operands behind the code that widens another one. -/
theorem Piece.Fits.wide_operands (h : Piece.Fits ⟨offset, Opcode.wide, operands, behind⟩) :
    ∃ inner rest, operands = inner :: rest ∧ rest.length = if inner = Opcode.iinc then 4 else 2 := by
  cases operands with
  | nil =>
      cases behind with
      | nil => cases h
      | cons inner after =>
          have heq : (if inner = Opcode.iinc then 6 else 4) = 1 := Except.ok.inj h
          split at heq <;> cases heq
  | cons inner rest =>
      refine ⟨inner, rest, rfl, ?_⟩
      have heq : (if inner = Opcode.iinc then 6 else 4) = rest.length + 1 + 1 := Except.ok.inj h
      by_cases hinner : inner = Opcode.iinc
      · rw [if_pos hinner] at heq ⊢
        omega
      · rw [if_neg hinner] at heq ⊢
        omega

theorem outcome_wide (h : Passes ⟨offset, Opcode.wide, operands, behind⟩ found) :
    Outcome pool labels ⟨offset, Opcode.wide, operands, behind⟩ found := by
  obtain rfl := h.found_eq_nil rfl
  obtain ⟨inner, rest, rfl, hrest⟩ := h.fits.wide_operands
  have hshort : 2 ≤ rest.length := by
    split at hrest <;> omega
  obtain ⟨index, hindex⟩ := @exists_u16At (Opcode.wide :: inner :: rest) 2 (by simpa using hshort)
  have hdecoded : ∀ behind, decodePiece pool labels ⟨offset, Opcode.wide, inner :: rest, behind⟩ = (do
      if inner = Opcode.iinc then
        return .iinc index (← u16At (Opcode.wide :: inner :: rest ++ behind) 4).toInt16
      if isVar inner then return .var inner index
      if inner = Opcode.ret then throw .subroutines
      throw (.wideOpcode inner)) := by
    intro behind
    show u16At (Opcode.wide :: inner :: rest ++ behind) 2 >>= _ = _
    rw [hindex]
    rfl
  by_cases hiinc : inner = Opcode.iinc
  · subst hiinc
    rw [if_pos rfl] at hrest
    obtain ⟨delta, hdelta⟩ := @exists_u16At (Opcode.wide :: Opcode.iinc :: rest) 4 (by simp [hrest])
    refine outcome_of_ok (.iinc index delta.toInt16) (fun behind => (hdecoded behind).trans ?_) rfl .nil
    rw [if_pos rfl, hdelta]
    rfl
  simp only [if_neg hiinc] at hdecoded
  by_cases hvar : isVar inner = true
  · simp only [if_pos hvar] at hdecoded
    exact outcome_of_ok _ hdecoded rfl .nil
  simp only [if_neg hvar] at hdecoded
  by_cases hret : inner = Opcode.ret
  · subst hret
    exact ⟨.error .subroutines, hdecoded, .wideSubroutine rfl rfl⟩
  · simp only [if_neg hret] at hdecoded
    exact ⟨.error (.wideOpcode inner), hdecoded, .wide rfl rfl ⟨hiinc, Bool.eq_false_of_not_eq_true hvar, hret⟩⟩

end Forms

/-- Where the scan passes an instruction and its targets have labels, the decoder gives the instruction from its own
bytes, or refuses it for its reference to the pool or its code. -/
theorem Passes.outcome {p : Piece} (h : Passes p found)
    (hlabels : ∀ o ∈ found, ∃ label, labels.lookup o = some label) : Outcome pool labels p found := by
  obtain ⟨offset, op, operands, behind⟩ := p
  cases hform : form? op with
  | none =>
      -- the scan knows the length of no such code
      obtain ⟨hlength, hswitch, hwide⟩ := (forms_agree op).2 hform
      rw [isSwitch, Bool.or_eq_false_iff, beq_eq_false_iff_ne, beq_eq_false_iff_ne] at hswitch
      have hnone := h.fits
      simp only [Piece.Fits, instrLength, if_neg hswitch.1, if_neg hswitch.2, if_neg hwide, hlength] at hnone
      cases hnone
  | some form =>
      have hagrees := agrees_of_form hform
      cases form with
      | simple => exact outcome_simple h hform
      | byte => exact outcome_byte h (.inl hform)
      | short => exact outcome_short h hform
      | constant =>
          obtain rfl : op = Opcode.ldc := hagrees
          exact outcome_constant h
      | longConstant => exact outcome_reference h (.inl hform)
      | var => exact outcome_byte h (.inr (.inr hform))
      | shortLoad => exact outcome_shortVar h (.inl hform)
      | shortStore => exact outcome_shortVar h (.inr hform)
      | increment => exact outcome_increment h hform
      | branch => exact outcome_branch h hform hlabels
      | longBranch =>
          obtain rfl : op = Opcode.gotoW := hagrees
          exact outcome_longBranch h hlabels
      | subroutine => exact ⟨_, decodePiece_of_form hform pool labels operands, .subroutine hagrees⟩
      | tableSwitch =>
          obtain rfl : op = Opcode.tableSwitch := hagrees
          exact outcome_tableSwitch h hlabels
      | lookupSwitch =>
          obtain rfl : op = Opcode.lookupSwitch := hagrees
          exact outcome_lookupSwitch h hlabels
      | field => exact outcome_reference h (.inr (.inl hform))
      | method => exact outcome_method h hform
      | dynamicCall => exact ⟨_, decodePiece_of_form hform pool labels operands, .dynamicCall hagrees⟩
      | type => exact outcome_reference h (.inr (.inr hform))
      | newArray => exact outcome_byte h (.inr (.inl hform))
      | multiNewArray =>
          obtain rfl : op = Opcode.multiNewArray := hagrees
          exact outcome_multiNewArray h
      | wide =>
          obtain rfl : op = Opcode.wide := hagrees
          exact outcome_wide h

end Outcomes

end Unscramble.ClassFile.Code
