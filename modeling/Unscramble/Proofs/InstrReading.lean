/-
An instruction is read back from the bytes that are written for it.  The reader finds the length of these bytes,
the offsets to which the instruction refers, and the instruction itself with its own labels for these offsets.
-/
import Mathlib.Data.FinEnum
import Unscramble.ClassFile.Encode
import Unscramble.Proofs.Outline
import Unscramble.Proofs.PoolReading

namespace Unscramble.ClassFile

/-- The codes of the instructions without operands, by the table of the decoder. -/
def isPlain (op : Opcode) : Bool :=
  Code.form? op == some .simple

/-- Whether the code and the operands of an instruction are those of its form. -/
def isConsistent : Instr → Bool
  | .simple op => isPlain op
  | .int op operand =>
      op == Opcode.bipush && -128 ≤ operand && operand ≤ 127 ||
        op == Opcode.sipush && -32768 ≤ operand && operand ≤ 32767 ||
        op == Opcode.newArray && 0 ≤ operand && operand ≤ 255
  | .var op _ => Code.isVar op
  | .type op _ => Code.isTyped op
  | .field op _ => op.between Opcode.getStatic Opcode.putField
  | .method op _ _ => op.between Opcode.invokeVirtual Opcode.invokeInterface
  | .jump op _ => Code.isBranch op
  | .tableSwitch low high _ targets => (targets.length : Int) == high.toInt - low.toInt + 1
  | .lookupSwitch _ keys targets => targets.length == keys.length
  | .label _ | .line _ | .ldc _ | .iinc _ _ | .multiNewArray _ _ => true

section Operands

theorem valueOf_u32Bytes (n : UInt32) : UInt32.ofNat (valueOf (u32Bytes n)) = n := by
  apply UInt32.toNat_inj.1
  have hlt := n.toNat_lt
  simp [valueOf, u32Bytes, Nat.shiftRight_eq_div_pow]
  omega

theorem int8_of_range {n : Int32} (hlow : -128 ≤ n) (hhigh : n ≤ 127) :
    n.toUInt32.toUInt8.toInt8.toInt32 = n := by
  have h : n.toUInt32.toUInt8.toInt8 = n.toInt8 :=
    Int8.toBitVec_inj.1 (BitVec.signExtend_eq_setWidth_of_le n.toBitVec (by decide)).symm
  rw [h]
  apply Int32.toInt_inj.1
  rw [Int32.le_iff_toInt_le] at hlow hhigh
  rw [Int8.toInt_toInt32, Int32.toInt_toInt8]
  exact Int.bmod_eq_of_le hlow (Int.lt_add_one_of_le hhigh)

theorem int16_of_range {n : Int32} (hlow : -32768 ≤ n) (hhigh : n ≤ 32767) :
    n.toUInt32.toUInt16.toInt16.toInt32 = n := by
  have h : n.toUInt32.toUInt16.toInt16 = n.toInt16 :=
    Int16.toBitVec_inj.1 (BitVec.signExtend_eq_setWidth_of_le n.toBitVec (by decide)).symm
  rw [h]
  apply Int32.toInt_inj.1
  rw [Int32.le_iff_toInt_le] at hlow hhigh
  rw [Int16.toInt_toInt32, Int32.toInt_toInt16]
  exact Int.bmod_eq_of_le hlow (Int.lt_add_one_of_le hhigh)

theorem uint8_of_range {n : Int32} (hlow : 0 ≤ n) (hhigh : n ≤ 255) :
    n.toUInt32.toUInt8.toUInt32.toInt32 = n := by
  have hnat : n.toUInt32.toNat < 256 := by
    rw [Int32.toNat_toUInt32_of_le hlow, ← Int32.toNat_toInt]
    rw [Int32.le_iff_toInt_le] at hhigh
    change n.toInt ≤ 255 at hhigh
    omega
  have h : n.toUInt32.toUInt8.toUInt32 = n.toUInt32 := by
    apply UInt32.toNat_inj.1
    simp
    omega
  rw [h]
  rfl

theorem delta_of_range {n : Int16} (hlow : -128 ≤ n) (hhigh : n ≤ 127) :
    n.toUInt16.toUInt8.toInt8.toInt16 = n := by
  have h : n.toUInt16.toUInt8.toInt8 = n.toInt8 :=
    Int8.toBitVec_inj.1 (BitVec.signExtend_eq_setWidth_of_le n.toBitVec (by decide)).symm
  rw [h]
  apply Int16.toInt_inj.1
  rw [Int16.le_iff_toInt_le] at hlow hhigh
  rw [Int8.toInt_toInt16, Int16.toInt_toInt8]
  exact Int.bmod_eq_of_le hlow (Int.lt_add_one_of_le hhigh)

theorem index_of_range {n : UInt16} (h : n ≤ 255) : n.toUInt8.toUInt16 = n := by
  apply UInt16.toNat_inj.1
  rw [UInt16.le_iff_toNat_le] at h
  change n.toNat ≤ 255 at h
  simp
  omega

end Operands

namespace Code

section Words

variable {before after : Bytes}

theorem u16At_append {offset : Nat} (h : before.length = offset) (n : UInt16) :
    u16At (before ++ (u16Bytes n ++ after)) offset = .ok n := by
  have hword := valueOf_u16Bytes n
  rw [u16At, u16At?, ← h, List.drop_left]
  exact congrArg Except.ok hword

theorem i32At_append {offset : Nat} (h : before.length = offset) (n : Int32) :
    i32At (before ++ (u32Bytes n.toUInt32 ++ after)) offset = .ok n := by
  have hword := valueOf_u32Bytes n.toUInt32
  rw [i32At, u32At, u32At?, ← h, List.drop_left]
  show Except.ok (UInt32.ofNat (valueOf (u32Bytes n.toUInt32))).toInt32 = _
  rw [hword]
  rfl

end Words

section Distances

variable {offsets : List (Label × Nat)} {offset : Nat} {label : Label} {block : Bytes}

/-- The distance leads from the offset to the place of the label. -/
def Leads (offsets : List (Label × Nat)) (offset : Nat) (label : Label) (distance : Int) : Prop :=
  ∃ target, offsets.lookup label = some target ∧ targetOf offset distance = .ok target

theorem offsetOf_eq_ok {o : Nat} (h : offsetOf offsets label = .ok o) : offsets.lookup label = some o := by
  rw [offsetOf] at h
  split at h
  · next hlookup =>
      cases h
      exact hlookup
  · cases h

theorem distance_leads {d : Int} (h : distance offsets offset label = .ok d) :
    Leads offsets offset label d := by
  obtain ⟨_, hplace, rfl⟩ := map_eq_ok.1 h
  obtain ⟨target, htarget, hcast⟩ := bind_eq_ok.1 hplace
  cases hcast
  refine ⟨target, offsetOf_eq_ok htarget, ?_⟩
  rw [targetOf, if_neg (by omega)]
  exact congrArg Except.ok (by omega)

theorem shortDistance_leads (h : shortDistance offsets offset label = .ok block) :
    ∃ d : Int16, block = u16Bytes d.toUInt16 ∧ Leads offsets offset label d.toInt := by
  obtain ⟨d, hd, hrest⟩ := bind_eq_ok.1 h
  split at hrest
  · cases hrest
  · rename_i hrange
    cases hrest
    refine ⟨Int16.ofInt d, rfl, ?_⟩
    rw [not_or, Int.not_lt, Int.not_lt] at hrange
    rw [Int16.toInt_ofInt, Int.bmod_eq_of_le hrange.1 (Int.lt_add_one_of_le hrange.2)]
    exact distance_leads hd

theorem longDistance_leads (h : longDistance offsets offset label = .ok block) :
    ∃ d : Int32, block = u32Bytes d.toUInt32 ∧ Leads offsets offset label d.toInt := by
  obtain ⟨d, hd, hrest⟩ := bind_eq_ok.1 h
  split at hrest
  · cases hrest
  · rename_i hrange
    cases hrest
    refine ⟨Int32.ofInt d, rfl, ?_⟩
    rw [not_or, Int.not_lt, Int.not_lt] at hrange
    rw [Int32.toInt_ofInt, Int.bmod_eq_of_le hrange.1 (Int.lt_add_one_of_le hrange.2)]
    exact distance_leads hd

/-- The decoder finds the label of a target. -/
theorem jumpLabel_eq_ok {places : Labels} {d : Int} {target : Nat} (htarget : targetOf offset d = .ok target)
    (hlabel : places.lookup target = some label) : jumpLabel places offset d = .ok label := by
  rw [targetOf] at htarget
  split at htarget
  · cases htarget
  · next hinside =>
      obtain rfl := Except.ok.inj htarget
      rw [jumpLabel, if_neg hinside, labelAt, hlabel]

/-- The targets of several distances, and the labels for them. -/
theorem targets_of_leads {labels : List Label} {distances : List Int32}
    (h : List.Forall₂ (fun label (d : Int32) => Leads offsets offset label d.toInt) labels distances) :
    ∃ found, distances.mapM (fun d => targetOf offset d.toInt) = .ok found ∧
      List.Forall₂ (fun label o => offsets.lookup label = some o) labels found := by
  induction h with
  | nil => exact ⟨[], rfl, .nil⟩
  | @cons label d labels distances hfirst _ ih =>
      obtain ⟨target, hlookup, htarget⟩ := hfirst
      obtain ⟨found, hfound, hpairs⟩ := ih
      refine ⟨target :: found, ?_, .cons hlookup hpairs⟩
      rw [List.mapM_cons, htarget, hfound]
      rfl

theorem mem_iff_of_lookup {labels : List Label} {found : List Nat}
    (h : List.Forall₂ (fun label o => offsets.lookup label = some o) labels found) (o : Nat) :
    o ∈ found ↔ ∃ label ∈ labels, offsets.lookup label = some o := by
  induction h with
  | nil => simp
  | cons hfirst _ ih => simp [ih, hfirst, eq_comm]

theorem exists_mem_of_lookup {labels : List Label} {found : List Nat}
    (h : List.Forall₂ (fun label o => offsets.lookup label = some o) labels found) (hlabel : label ∈ labels) :
    ∃ o ∈ found, offsets.lookup label = some o := by
  induction h with
  | nil => cases hlabel
  | @cons _ o _ _ hfirst _ ih =>
      rcases List.mem_cons.1 hlabel with rfl | hlabel
      · exact ⟨o, List.mem_cons_self, hfirst⟩
      · obtain ⟨o', hmem, ho'⟩ := ih hlabel
        exact ⟨o', List.mem_cons_of_mem o hmem, ho'⟩

theorem labels_of_leads {places : Labels} {f : Label → Label} {labels : List Label}
    {distances : List Int32}
    (h : List.Forall₂ (fun label (d : Int32) => Leads offsets offset label d.toInt) labels distances)
    (hf : ∀ label ∈ labels, ∀ o, offsets.lookup label = some o → places.lookup o = some (f label)) :
    distances.mapM (fun d => jumpLabel places offset d.toInt) = .ok (labels.map f) := by
  induction h with
  | nil => rfl
  | @cons label d labels distances hfirst _ ih =>
      obtain ⟨target, hlookup, htarget⟩ := hfirst
      have hplace := hf label List.mem_cons_self target hlookup
      rw [List.mapM_cons, jumpLabel_eq_ok htarget hplace, ih fun l hl => hf l (List.mem_cons_of_mem label hl)]
      rfl

end Distances

section Reading

variable {b : PoolBuilder} {offsets : List (Label × Nat)} {offset : Nat} {i : Instr} {op : Opcode}
  {operands : Bytes}

/-- What the reader finds at an offset where the bytes of an instruction stand. -/
structure Reads (b : PoolBuilder) (offsets : List (Label × Nat)) (offset : Nat) (i : Instr)
    (op : Opcode) (operands : Bytes) : Prop where
  size : (encodedSize offset i).run b = .ok (operands.length + 1, b)
  length : ∀ rest, instrLength offset op (op :: operands ++ rest) = .ok (operands.length + 1)
  targets : ∃ found, (∀ behind, branchTargets ⟨offset, op, operands, behind⟩ = .ok found) ∧
    ∀ o, o ∈ found ↔ ∃ label ∈ i.targets, offsets.lookup label = some o
  placed : ∀ label ∈ i.targets, ∃ o, offsets.lookup label = some o
  decoded : ∀ (places : Labels) (f : Label → Label),
    (∀ label ∈ i.targets, ∀ o, offsets.lookup label = some o → places.lookup o = some (f label)) →
      ∀ behind, decodePiece b.table places ⟨offset, op, operands, behind⟩ = .ok (i.relabel f)

/-- The bytes stand for the instruction. -/
def Stores (b : PoolBuilder) (offsets : List (Label × Nat)) (offset : Nat) (i : Instr)
    (block : Bytes) : Prop :=
  ∃ op operands, block = op :: operands ∧ Reads b offsets offset i op operands

/-- Whether the operands of the code are distances. -/
def refers (op : Opcode) : Bool :=
  isSwitch op || isShortBranch op || op == Opcode.gotoW || op == Opcode.jsrW

theorem branchTargets_of_not_refers (h : refers op = false) (operands behind : Bytes) :
    branchTargets ⟨offset, op, operands, behind⟩ = .ok [] := by
  simp only [refers, Bool.or_eq_false_iff] at h
  simp only [branchTargets, branchDistance?, h, Bool.or_self, Bool.false_eq_true, if_false]
  rfl

theorem instrLength_of_fixed {n : Nat} (h : fixedLength? op = some n) (input : Bytes) :
    instrLength offset op input = .ok n := by
  have hne : ∀ other, fixedLength? other = none → op ≠ other := by
    rintro other hother rfl
    rw [h] at hother
    cases hother
  simp only [instrLength, if_neg (hne Opcode.tableSwitch rfl), if_neg (hne Opcode.lookupSwitch rfl),
    if_neg (hne Opcode.wide rfl), h]

/-- An instruction that refers to no place. -/
theorem Reads.of_not_refers
    (hsize : (encodedSize offset i).run b = .ok (operands.length + 1, b))
    (hlength : ∀ rest, instrLength offset op (op :: operands ++ rest) = .ok (operands.length + 1))
    (hop : refers op = false) (htargets : i.targets = []) (hlabels : ∀ f, i.relabel f = i)
    (hdecoded : ∀ places behind, decodePiece b.table places ⟨offset, op, operands, behind⟩ = .ok i) :
    Reads b offsets offset i op operands where
  size := hsize
  length := hlength
  targets := ⟨[], branchTargets_of_not_refers hop operands, by simp [htargets]⟩
  placed := by simp [htargets]
  decoded := fun places f _ behind => by rw [hlabels, hdecoded]

theorem decodePiece_of_form {form : Form} (h : form? op = some form) (pool : ConstantPool) (places : Labels)
    (operands behind : Bytes) : decodePiece pool places ⟨offset, op, operands, behind⟩ =
      decodeForm pool places ⟨offset, op, operands, behind⟩ form := by
  simp only [decodePiece, h]

/-- The codes that the decoder reads in a form, with what the tables of the scan say of them. -/
def Form.agrees (op : Opcode) : Form → Prop
  | .simple | .shortLoad | .shortStore => fixedLength? op = some 1 ∧ refers op = false
  | .byte | .var | .newArray => fixedLength? op = some 2 ∧ refers op = false
  | .short | .increment => fixedLength? op = some 3 ∧ refers op = false
  | .constant => op = Opcode.ldc
  | .longConstant => (op = Opcode.ldcW ∨ op = Opcode.ldc2W) ∧ fixedLength? op = some 3 ∧ refers op = false
  | .field =>
      op.between Opcode.getStatic Opcode.putField = true ∧ fixedLength? op = some 3 ∧ refers op = false
  | .method =>
      op.between Opcode.invokeVirtual Opcode.invokeInterface = true ∧
        fixedLength? op = some (if op = Opcode.invokeInterface then 5 else 3) ∧ refers op = false
  | .type => isTyped op = true ∧ fixedLength? op = some 3 ∧ refers op = false
  | .multiNewArray => op = Opcode.multiNewArray
  | .branch => fixedLength? op = some 3 ∧ isShortBranch op = true ∧ isSwitch op = false
  | .longBranch => op = Opcode.gotoW
  | .tableSwitch => op = Opcode.tableSwitch
  | .lookupSwitch => op = Opcode.lookupSwitch
  | .wide => op = Opcode.wide
  | .subroutine => op = Opcode.jsr ∨ op = Opcode.jsrW ∨ op = Opcode.ret
  | .dynamicCall => op = Opcode.invokeDynamic

instance (op : Opcode) (form : Form) : Decidable (form.agrees op) := by
  unfold Form.agrees
  split <;> infer_instance

/-- The tables agree on every code. -/
theorem forms_agree : ∀ op : Opcode, (∀ form ∈ form? op, form.agrees op) ∧
    (form? op = none → fixedLength? op = none ∧ isSwitch op = false ∧ op ≠ Opcode.wide) := by
  decide +kernel

theorem agrees_of_form {form : Form} (h : form? op = some form) : form.agrees op :=
  (forms_agree op).1 form h

theorem stores_simple (h : isPlain op = true) : Stores b offsets offset (.simple op) [op] := by
  have hform : form? op = some .simple := eq_of_beq h
  obtain ⟨hlength, hrefers⟩ := agrees_of_form hform
  exact ⟨op, [], rfl, .of_not_refers rfl (fun _ => instrLength_of_fixed hlength _) hrefers rfl
    (fun _ => rfl) fun places behind => decodePiece_of_form hform b.table places [] behind⟩

theorem stores_bipush {value : Int32} (hlow : -128 ≤ value) (hhigh : value ≤ 127) :
    Stores b offsets offset (.int Opcode.bipush value)
      [Opcode.bipush, value.toUInt32.toUInt8] := by
  refine ⟨_, _, rfl, .of_not_refers rfl (fun _ => rfl) rfl rfl (fun _ => rfl) fun places behind => ?_⟩
  exact congrArg (fun v => Except.ok (Instr.int Opcode.bipush v)) (int8_of_range hlow hhigh)

theorem stores_newArray {value : Int32} (hlow : 0 ≤ value) (hhigh : value ≤ 255) :
    Stores b offsets offset (.int Opcode.newArray value)
      [Opcode.newArray, value.toUInt32.toUInt8] := by
  refine ⟨_, _, rfl, .of_not_refers rfl (fun _ => rfl) rfl rfl (fun _ => rfl) fun places behind => ?_⟩
  exact congrArg (fun v => Except.ok (Instr.int Opcode.newArray v)) (uint8_of_range hlow hhigh)

theorem u16At_one (op : Opcode) (n : UInt16) (after : Bytes) : u16At (op :: (u16Bytes n ++ after)) 1 = .ok n :=
  @u16At_append [op] after 1 rfl n

theorem stores_sipush {value : Int32} (hlow : -32768 ≤ value) (hhigh : value ≤ 32767) :
    Stores b offsets offset (.int Opcode.sipush value)
      (Opcode.sipush :: u16Bytes value.toUInt32.toUInt16) := by
  refine ⟨_, _, rfl, .of_not_refers rfl (fun _ => rfl) rfl rfl (fun _ => rfl) fun places behind => ?_⟩
  refine bind_eq_ok.2 ⟨_, u16At_one _ _ behind, ?_⟩
  exact congrArg (fun v => Except.ok (Instr.int Opcode.sipush v)) (int16_of_range hlow hhigh)

/-- A constant that is loaded with an index of one byte. -/
theorem stores_ldc {value : Constant} {index : UInt16} (hwide : value.isWide = false)
    (hindex : index ≤ 255) (hconstant : b.table.constant index = .ok value)
    (hagain : (PoolBuilder.loadable value).run b = .ok (index, b)) :
    Stores b offsets offset (.ldc value) [Opcode.ldc, index.toUInt8] := by
  have hshort : isLongLoad value index = false := by
    simp [isLongLoad, hwide, UInt16.not_lt.2 hindex]
  refine ⟨_, _, rfl, .of_not_refers ?_ (fun _ => rfl) rfl rfl (fun _ => rfl) fun places behind => ?_⟩
  · rw [encodedSize, StateT.run_bind, hagain]
    simp only [bind, Except.bind, hshort]
    rfl
  · refine bind_eq_ok.2 ⟨index.toUInt8, rfl, bind_eq_ok.2 ⟨value, ?_, rfl⟩⟩
    rw [mapError_eq_ok, index_of_range hindex]
    exact hconstant

/-- A constant that is loaded with an index of two bytes. -/
theorem stores_longLoad {value : Constant} {index : UInt16} (hop : op = Opcode.ldcW ∨ op = Opcode.ldc2W)
    (hlong : isLongLoad value index = true) (hconstant : b.table.constant index = .ok value)
    (hagain : (PoolBuilder.loadable value).run b = .ok (index, b)) :
    Stores b offsets offset (.ldc value) (op :: u16Bytes index) := by
  have hform : form? op = some .longConstant := by
    rcases hop with rfl | rfl <;> rfl
  obtain ⟨-, hlength, hrefers⟩ := agrees_of_form hform
  refine ⟨_, _, rfl, .of_not_refers ?_ (fun _ => instrLength_of_fixed hlength _) hrefers rfl (fun _ => rfl)
    fun places behind => ?_⟩
  · rw [encodedSize, StateT.run_bind, hagain]
    simp only [bind, Except.bind, hlong]
    rfl
  · rw [decodePiece_of_form hform]
    exact bind_eq_ok.2 ⟨index, u16At_one op index behind, bind_eq_ok.2 ⟨value, mapError_eq_ok.2 hconstant, rfl⟩⟩

/-- A code that includes the index of a local. -/
def isShortVar (op : Opcode) : Bool :=
  form? op == some .shortLoad || form? op == some .shortStore

theorem decodePiece_short (pool : ConstantPool) (places : Labels) (h : isShortVar op = true)
    (operands behind : Bytes) :
    decodePiece pool places ⟨offset, op, operands, behind⟩ = decodePiece #[] [] ⟨0, op, [], []⟩ := by
  rw [isShortVar, Bool.or_eq_true, beq_iff_eq, beq_iff_eq] at h
  rcases h with hform | hform <;> rw [decodePiece_of_form hform, decodePiece_of_form hform] <;> rfl

/-- The code that includes an index gives the code and the index back. -/
theorem shortVar_facts : ∀ op : Opcode, isVar op = true → ∀ n : Fin 4,
    fixedLength? (shortVar op (UInt16.ofNat n)) = some 1 ∧
    refers (shortVar op (UInt16.ofNat n)) = false ∧ isShortVar (shortVar op (UInt16.ofNat n)) = true ∧
    decodePiece #[] [] ⟨0, shortVar op (UInt16.ofNat n), [], []⟩ = .ok (.var op (UInt16.ofNat n)) := by
  decide +kernel

theorem stores_shortVar {index : UInt16} (h : isVar op = true) (hindex : index ≤ 3) :
    Stores b offsets offset (.var op index) [shortVar op index] := by
  obtain ⟨n, rfl⟩ : ∃ n : Fin 4, UInt16.ofNat n = index := by
    rw [UInt16.le_iff_toNat_le] at hindex
    change index.toNat ≤ 3 at hindex
    exact ⟨⟨index.toNat, by omega⟩, UInt16.ofNat_toNat⟩
  obtain ⟨hlength, hrefers, hshort, hdecoded⟩ := shortVar_facts op h n
  refine ⟨_, _, rfl, .of_not_refers ?_ (fun _ => instrLength_of_fixed hlength _) hrefers rfl
    (fun _ => rfl) fun places behind => ?_⟩
  · rw [encodedSize, if_pos hindex]
    rfl
  · rw [decodePiece_short b.table places hshort, hdecoded]

/-- The codes of a kind have the form of that kind. -/
theorem form_of_kind : ∀ op : Opcode, (isVar op = true → form? op = some .var) ∧
    (isTyped op = true → form? op = some .type) ∧ (isBranch op = true → form? op = some .branch) ∧
    (op.between Opcode.getStatic Opcode.putField = true → form? op = some .field) ∧
    (op.between Opcode.invokeVirtual Opcode.invokeInterface = true → form? op = some .method) := by
  decide +kernel

theorem stores_var {index : UInt16} (h : isVar op = true) (hlow : ¬ index ≤ 3) (hhigh : index ≤ 255) :
    Stores b offsets offset (.var op index) [op, index.toUInt8] := by
  have hform := (form_of_kind op).1 h
  obtain ⟨hlength, hrefers⟩ := agrees_of_form hform
  refine ⟨_, _, rfl, .of_not_refers ?_ (fun _ => instrLength_of_fixed hlength _) hrefers rfl
    (fun _ => rfl) fun places behind => ?_⟩
  · rw [encodedSize, if_neg hlow, if_pos hhigh]
    rfl
  · rw [decodePiece_of_form hform]
    exact congrArg (fun n => Except.ok (Instr.var op n)) (index_of_range hhigh)

theorem stores_wideVar {index : UInt16} (h : isVar op = true) (hhigh : ¬ index ≤ 255) :
    Stores b offsets offset (.var op index) (Opcode.wide :: op :: u16Bytes index) := by
  have hlow : ¬ index ≤ 3 := fun h => hhigh (UInt16.le_trans h (by decide))
  have hne : op ≠ Opcode.iinc := by
    rintro rfl
    cases h
  refine ⟨_, _, rfl, .of_not_refers ?_ (fun rest => ?_) rfl rfl (fun _ => rfl) fun places behind => ?_⟩
  · rw [encodedSize, if_neg hlow, if_neg hhigh]
    rfl
  · exact congrArg Except.ok (if_neg hne)
  · refine bind_eq_ok.2 ⟨op, rfl, bind_eq_ok.2 ⟨index, @u16At_append [Opcode.wide, op] behind 2 rfl index, ?_⟩⟩
    rw [if_neg hne, if_pos h]
    rfl

theorem stores_iinc {index : UInt16} {delta : Int16} (h : isWideIncrement index delta = false) :
    Stores b offsets offset (.iinc index delta) [Opcode.iinc, index.toUInt8, delta.toUInt16.toUInt8] := by
  have hrange := h
  simp only [isWideIncrement, Bool.or_eq_false_iff, decide_eq_false_iff_not] at hrange
  obtain ⟨⟨hindex, hlow⟩, hhigh⟩ := hrange
  refine ⟨_, _, rfl, .of_not_refers ?_ (fun _ => rfl) rfl rfl (fun _ => rfl) fun places behind => ?_⟩
  · rw [encodedSize, h]
    rfl
  · have hdelta := delta_of_range (Int16.not_lt.1 hlow) (Int16.not_lt.1 hhigh)
    have hsame := index_of_range (UInt16.not_lt.1 hindex)
    show Except.ok (Instr.iinc index.toUInt8.toUInt16 delta.toUInt16.toUInt8.toInt8.toInt16) = _
    rw [hsame, hdelta]

theorem stores_wideIinc {index : UInt16} {delta : Int16} (h : isWideIncrement index delta = true) :
    Stores b offsets offset (.iinc index delta)
      (Opcode.wide :: Opcode.iinc :: u16Bytes index ++ u16Bytes delta.toUInt16) := by
  refine ⟨_, _, rfl, .of_not_refers ?_ (fun _ => rfl) rfl rfl (fun _ => rfl) fun places behind => ?_⟩
  · rw [encodedSize, h]
    rfl
  · have hindex := @u16At_append [Opcode.wide, Opcode.iinc] (u16Bytes delta.toUInt16 ++ behind) 2 rfl index
    have hdelta := @u16At_append (Opcode.wide :: Opcode.iinc :: u16Bytes index) behind 4 rfl delta.toUInt16
    exact bind_eq_ok.2 ⟨Opcode.iinc, rfl, bind_eq_ok.2 ⟨index, hindex, bind_eq_ok.2 ⟨delta.toUInt16, hdelta, rfl⟩⟩⟩

theorem stores_type {name : String} {index : UInt16} (h : isTyped op = true)
    (hname : b.table.className index = .ok name) :
    Stores b offsets offset (.type op name) (op :: u16Bytes index) := by
  have hform := (form_of_kind op).2.1 h
  obtain ⟨-, hlength, hrefers⟩ := agrees_of_form hform
  refine ⟨_, _, rfl, .of_not_refers rfl (fun _ => instrLength_of_fixed hlength _) hrefers rfl (fun _ => rfl)
    fun places behind => ?_⟩
  rw [decodePiece_of_form hform]
  exact bind_eq_ok.2 ⟨index, u16At_one op index behind, bind_eq_ok.2 ⟨name, mapError_eq_ok.2 hname, rfl⟩⟩

theorem stores_field {ref : MemberRef} {index : UInt16} {flag : Bool}
    (h : op.between Opcode.getStatic Opcode.putField = true) (href : b.table.memberRef index = .ok (ref, flag)) :
    Stores b offsets offset (.field op ref) (op :: u16Bytes index) := by
  have hform := (form_of_kind op).2.2.2.1 h
  obtain ⟨-, hlength, hrefers⟩ := agrees_of_form hform
  refine ⟨_, _, rfl, .of_not_refers rfl (fun _ => instrLength_of_fixed hlength _) hrefers rfl (fun _ => rfl)
    fun places behind => ?_⟩
  rw [decodePiece_of_form hform]
  exact bind_eq_ok.2 ⟨index, u16At_one op index behind,
    bind_eq_ok.2 ⟨(ref, flag), mapError_eq_ok.2 href, rfl⟩⟩

/-- A call, with the number of arguments and a zero if it is through an interface. -/
theorem stores_method {ref : MemberRef} {index : UInt16} {flag : Bool} {arguments : Bytes}
    (h : op.between Opcode.invokeVirtual Opcode.invokeInterface = true)
    (harguments : arguments.length = if op == Opcode.invokeInterface then 2 else 0)
    (href : b.table.memberRef index = .ok (ref, flag)) :
    Stores b offsets offset (.method op ref flag) (op :: u16Bytes index ++ arguments) := by
  have hform := (form_of_kind op).2.2.2.2 h
  obtain ⟨-, hfixed, hrefers⟩ := agrees_of_form hform
  have hlength : (if op = Opcode.invokeInterface then 5 else 3) = (u16Bytes index ++ arguments).length + 1 := by
    rw [List.length_append, length_u16Bytes, harguments]
    simp only [beq_iff_eq]
    split <;> rfl
  refine ⟨_, u16Bytes index ++ arguments, rfl, .of_not_refers ?_ (fun _ => ?_) hrefers rfl (fun _ => rfl)
    fun places behind => ?_⟩
  · rw [encodedSize, ← hlength]
    simp only [beq_iff_eq]
    rfl
  · rw [instrLength_of_fixed hfixed, hlength]
  · have hindex := u16At_one op index (arguments ++ behind)
    rw [← List.append_assoc] at hindex
    rw [decodePiece_of_form hform]
    exact bind_eq_ok.2 ⟨index, hindex, bind_eq_ok.2 ⟨(ref, flag), mapError_eq_ok.2 href, rfl⟩⟩

theorem stores_multiNewArray {name : String} {index : UInt16} {dims : UInt8}
    (hname : b.table.className index = .ok name) :
    Stores b offsets offset (.multiNewArray name dims)
      (Opcode.multiNewArray :: u16Bytes index ++ [dims]) := by
  refine ⟨_, u16Bytes index ++ [dims], rfl, .of_not_refers rfl (fun _ => rfl) rfl rfl (fun _ => rfl)
    fun places behind => ?_⟩
  have hindex := u16At_one Opcode.multiNewArray index (dims :: behind)
  exact bind_eq_ok.2 ⟨index, hindex, bind_eq_ok.2 ⟨name, mapError_eq_ok.2 hname, rfl⟩⟩

theorem branchTargets_branch (h : form? op = some .branch) (operands behind : Bytes) :
    branchTargets ⟨offset, op, operands, behind⟩ = (do
      let n ← u16At (op :: operands ++ behind) 1
      return [← targetOf offset n.toInt16.toInt]) := by
  obtain ⟨-, hshort, hswitch⟩ := agrees_of_form h
  simp only [branchTargets, hswitch, Bool.false_eq_true, if_false, branchDistance?, hshort, if_true, Piece.code]
  cases u16At (op :: operands ++ behind) 1 <;> rfl

theorem stores_jump {target : Label} {d : Int16} (h : isBranch op = true)
    (hleads : Leads offsets offset target d.toInt) :
    Stores b offsets offset (.jump op target) (op :: u16Bytes d.toUInt16) := by
  have hform := (form_of_kind op).2.2.1 h
  obtain ⟨hlength, -⟩ := agrees_of_form hform
  obtain ⟨place, hplace, htarget⟩ := hleads
  refine ⟨_, _, rfl, rfl, fun _ => instrLength_of_fixed hlength _, ⟨[place], fun behind => ?_, ?_⟩, ?_, ?_⟩
  · rw [branchTargets_branch hform]
    exact bind_eq_ok.2 ⟨_, u16At_one op d.toUInt16 behind, bind_eq_ok.2 ⟨place, htarget, rfl⟩⟩
  · simp [Instr.targets, hplace, eq_comm]
  · simp [Instr.targets, hplace]
  · intro places f hf behind
    have hlabel := hf target (List.mem_singleton.2 rfl) place hplace
    rw [decodePiece_of_form hform]
    exact bind_eq_ok.2 ⟨_, u16At_one op d.toUInt16 behind,
      bind_eq_ok.2 ⟨f target, jumpLabel_eq_ok htarget hlabel, rfl⟩⟩

end Reading

end Code

end Unscramble.ClassFile
