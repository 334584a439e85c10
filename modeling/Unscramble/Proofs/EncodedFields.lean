/-
Encoded fields with the methods that store to them and read them, and what the scan for multipliers observes in these
methods: in the one that stores the encoder, and in the one that reads the decoder.
-/
import Unscramble.Multiplier.Cancel
import Unscramble.Multiplier.Scan
import Unscramble.Proofs.CancelLayout
import Unscramble.Proofs.FrameOrder
import Unscramble.Proofs.Machine
import Unscramble.Proofs.Solving
import Unscramble.Proofs.StraightLine

namespace Unscramble

namespace Number

/-- The written type of the values of the width. -/
def descriptor : Number → String
  | int _ => "I"
  | long _ => "J"

def loadOp : Number → Opcode
  | int _ => Opcode.iload
  | long _ => Opcode.lload

def mulOp : Number → Opcode
  | int _ => Opcode.imul
  | long _ => Opcode.lmul

def returnOp : Number → Opcode
  | int _ => Opcode.ireturn
  | long _ => Opcode.lreturn

end Number

namespace Multiplier

open Analysis

theorem times_eq (n : Number) : Cancel.times n = [.ldc (.ofNumber n), .simple n.mulOp] := by
  cases n <;> rfl

theorem ofInstr_ldc (n : Number) : Effect.ofInstr (.ldc (.ofNumber n)) = .ok (.push n.kind) := by
  cases n <;> rfl

theorem ofInstr_mulOp (n : Number) : Effect.ofInstr (.simple n.mulOp) = .ok (.binary (some n.kind)) := by
  cases n <;> rfl

/-- Straight code may begin with a multiplication by a constant. -/
theorem straight_times {V : Type} {d : Domain V} (n : Number) {rest : List Instr} {index : Nat} {locals stack : List V}
    {x : V} {events : List (Event V)}
    (h : Straight d rest (index + 2) ⟨locals, d.binary (index + 1) (.simple n.mulOp) x
      (d.push index (.ldc (.ofNumber n)) n.kind) n.kind :: stack⟩ events) :
    Straight d (Cancel.times n ++ rest) index ⟨locals, x :: stack⟩
      (.step index ⟨locals, x :: stack⟩ :: .edge index (index + 1) ::
        .step (index + 1) ⟨locals, d.push index (.ldc (.ofNumber n)) n.kind :: x :: stack⟩ ::
        .edge (index + 1) (index + 2) :: events) := by
  rw [times_eq]
  exact .next (ofInstr_ldc n) (fun _ => rfl) rfl (.next (ofInstr_mulOp n) (fun _ => rfl) rfl h)

/-- A static field that holds its value times an encoder, with a method that stores the value of a slot to it and one
that reads it; of the methods all but the bodies. -/
structure EncodedField where
  name : String
  encoder : Number
  decoder : Number
  isMultiplier : encoder.isMultiplier = true
  inverse : encoder.inverse? = some decoder
  slot : UInt16
  setting : MethodDecl
  getting : MethodDecl
  settable : setting.HasParameters
  gettable : getting.HasParameters

namespace EncodedField

variable {V : Type} {d : Domain V} (owner : String) (e : EncodedField)

def ref : MemberRef :=
  ⟨owner, e.name, e.encoder.descriptor⟩

/-- The method that stores to the field, with more instructions after the load. -/
def storing (more : List Instr) : MethodDecl :=
  { e.setting with
    code := .var e.encoder.loadOp e.slot ::
      (more ++ [.field Opcode.putStatic (e.ref owner), .simple Opcode.vreturn])
    tries := [] }

/-- The method that reads the field, with more instructions before the return. -/
def reading (more : List Instr) : MethodDecl :=
  { e.getting with
    code := .field Opcode.getStatic (e.ref owner) :: (more ++ [.simple e.encoder.returnOp])
    tries := [] }

/-- Encodes a value and stores it. -/
def setter : MethodDecl :=
  e.storing owner (Cancel.times e.encoder)

/-- Reads the field and decodes its value. -/
def getter : MethodDecl :=
  e.reading owner (Cancel.times e.decoder)

/-- Stores a value as it is. -/
def plainSetter : MethodDecl :=
  e.storing owner []

/-- Reads the field and returns what it holds. -/
def plainGetter : MethodDecl :=
  e.reading owner []

theorem kind?_ref : (e.ref owner).kind? = some e.encoder.kind := by
  have hint : Descriptor.fieldType "I" = .ok ⟨.int, 0⟩ := by decide +kernel
  have hlong : Descriptor.fieldType "J" = .ok ⟨.long, 0⟩ := by decide +kernel
  rw [MemberRef.kind?, ref]
  cases e.encoder with
  | int n => simp only [Number.descriptor, hint, Kind.ofType?, Number.kind]
  | long n => simp only [Number.descriptor, hlong, Kind.ofType?, Number.kind]

theorem isMultiplier_decoder : e.decoder.isMultiplier = true := by
  obtain ⟨inverse, hinverse, hne⟩ := Number.isMultiplier_iff.1 e.isMultiplier
  obtain rfl := Option.some.inj (e.inverse.symm.trans hinverse)
  exact Number.isMultiplier_iff.2 ⟨e.encoder, Number.inverse?_symm e.inverse, hne.symm⟩

theorem fieldKey_inj {e e' : EncodedField} (h : (e.ref owner).fieldKey = (e'.ref owner).fieldKey) :
    e.name = e'.name :=
  (String.append_right_inj _).1 h

section Analyses

theorem ofInstr_loadOp (n : Number) (slot : UInt16) : Effect.ofInstr (.var n.loadOp slot) = .ok (.load slot) := by
  cases n <;> rfl

theorem ofInstr_returnOp (n : Number) : Effect.ofInstr (.simple n.returnOp) = .ok (.leave true) := by
  cases n <;> rfl

theorem ofInstr_putStatic : Effect.ofInstr (.field Opcode.putStatic (e.ref owner)) = .ok (.unary none) :=
  Machine.ofInstr_field (e.kind?_ref owner) _

theorem ofInstr_getStatic :
    Effect.ofInstr (.field Opcode.getStatic (e.ref owner)) = .ok (.push e.encoder.kind) :=
  Machine.ofInstr_field (e.kind?_ref owner) _

/-- The end of the method that stores to the field. -/
theorem straight_put (index : Nat) (locals : List V) (x : V) :
    Straight d [.field Opcode.putStatic (e.ref owner), .simple Opcode.vreturn] index ⟨locals, [x]⟩
      [.step index ⟨locals, [x]⟩, .edge index (index + 1), .step (index + 1) ⟨locals, []⟩] :=
  .next (e.ofInstr_putStatic owner) (fun _ => rfl) rfl (.leave rfl (fun _ => rfl) rfl)

/-- The end of the method that reads the field. -/
theorem straight_return (index : Nat) (locals : List V) (x : V) :
    Straight d [.simple e.encoder.returnOp] index ⟨locals, [x]⟩ [.step index ⟨locals, [x]⟩] :=
  .leave (ofInstr_returnOp e.encoder) (fun _ => rfl) rfl

/-- The analysis of the method that stores to the field, if what stands behind the load is straight. -/
theorem analyze_storing (d : Domain V) (more : List Instr) :
    ∃ locals v, ∀ {events}, Straight d (more ++ [.field Opcode.putStatic (e.ref owner), .simple Opcode.vreturn]) 1
        ⟨locals, [d.copy 0 (.var e.encoder.loadOp e.slot) v]⟩ events →
      ∃ frames, analyze d (e.storing owner more) =
        ⟨.step 0 ⟨locals, []⟩ :: .edge 0 1 :: events, .ok frames⟩ := by
  have hparams : (e.storing owner more).HasParameters := e.settable
  obtain ⟨locals, hentry, hslots⟩ := exists_entryFrame d hparams
  have hslot : e.slot.toNat < locals.length := Nat.lt_of_lt_of_le (slot_lt_slotsUsed List.mem_cons_self) hslots
  refine ⟨locals, locals[e.slot.toNat], fun hmore => ?_⟩
  refine analyze_straight (.next (ofInstr_loadOp e.encoder e.slot) (fun _ => rfl) ?_ hmore) rfl hentry
  exact Frame.execute_load_eq_ok.2 ⟨_, List.getElem?_eq_getElem hslot, rfl⟩

/-- The analysis of the method that reads the field, if what stands behind the read is straight. -/
theorem analyze_reading (d : Domain V) (more : List Instr) :
    ∃ locals, ∀ {events}, Straight d (more ++ [.simple e.encoder.returnOp]) 1
        ⟨locals, [d.push 0 (.field Opcode.getStatic (e.ref owner)) e.encoder.kind]⟩ events →
      ∃ frames, analyze d (e.reading owner more) =
        ⟨.step 0 ⟨locals, []⟩ :: .edge 0 1 :: events, .ok frames⟩ := by
  have hparams : (e.reading owner more).HasParameters := e.gettable
  obtain ⟨locals, hentry, -⟩ := exists_entryFrame d hparams
  refine ⟨locals, fun hmore => ?_⟩
  exact analyze_straight (.next (e.ofInstr_getStatic owner) (fun _ => rfl) rfl hmore) rfl hentry

end Analyses

section Scanning

variable {code : Array Instr} {left right value : Tracked} {rest : List Tracked} {frame : Frame Tracked} {n : Number}
  {index loadAt constantAt : Nat} {op : Opcode} {slot : UInt16} {put : String} {s : Scan}

theorem afterEvent_nil {locals : List Tracked} : s.afterEvent code (.step index ⟨locals, []⟩) = s := by
  simp only [Scan.afterEvent]
  split
  · next hstack => cases hstack
  · next hstack => cases hstack
  · rfl

theorem afterEvent_edge (source target : Nat) : s.afterEvent code (.edge source target) = s :=
  rfl

theorem afterEvent_ldc {constant : Constant} (h : code[index]? = some (.ldc constant)) :
    s.afterEvent code (.step index frame) = s := by
  simp only [Scan.afterEvent, h]

/-- An instruction without operands in the code has no product to multiply when there is only one value. -/
theorem afterEvent_single {locals : List Tracked} (h : code[index]? = some (.simple op)) :
    s.afterEvent code (.step index ⟨locals, [value]⟩) = s := by
  simp only [Scan.afterEvent, h]

theorem afterEvent_mul {locals : List Tracked} (h : code[index]? = some (.simple n.mulOp)) :
    s.afterEvent code (.step index ⟨locals, right :: left :: rest⟩) = s.multiply code left right := by
  simp only [Scan.afterEvent, h]
  cases n <;> rfl

theorem afterEvent_put {locals : List Tracked} {ref : MemberRef}
    (h : code[index]? = some (.field Opcode.putStatic ref)) :
    s.afterEvent code (.step index ⟨locals, value :: rest⟩) = s.store code ref.fieldKey value := by
  simp only [Scan.afterEvent, h]
  rfl

theorem maker?_eq {size : Nat} {instr : Instr} (hvalue : value.origin = ⟨size, [index]⟩)
    (h : code[index]? = some instr) : Scan.maker? code value = some (index, instr) := by
  simp only [Scan.maker?, hvalue, Origin.maker?, h, Option.bind_eq_bind, Option.bind_some, Option.pure_def]

theorem constant?_eq (h : Scan.maker? code right = some (constantAt, .ldc (.ofNumber n))) :
    Scan.constant? code right = some (constantAt, n) := by
  cases n <;> simp only [Scan.constant?, h, Constant.ofNumber]

/-- A value from a local slot times a constant is no product of a field. -/
theorem fieldProduct?_load (h : Scan.maker? code left = some (loadAt, .var op slot)) :
    Scan.fieldProduct? code left right = none := by
  have hconstant : Scan.constant? code left = none := by simp only [Scan.constant?, h]
  have hfield : Scan.readField? code left = none := by simp only [Scan.readField?, h]
  simp [Scan.fieldProduct?, hconstant, hfield]

/-- A read of a field times a multiplier. -/
theorem fieldProduct?_read {ref : MemberRef} {readAt : Nat}
    (hleft : Scan.maker? code left = some (readAt, .field Opcode.getStatic ref))
    (hright : Scan.maker? code right = some (constantAt, .ldc (.ofNumber n))) (hn : n.isMultiplier = true) :
    Scan.fieldProduct? code left right = some ⟨ref.fieldKey, constantAt, n⟩ := by
  have hconstant : Scan.constant? code left = none := by simp only [Scan.constant?, hleft]
  have hfield : Scan.readField? code left = some ref.fieldKey := by
    simp only [Scan.readField?, hleft]
    rfl
  simp [Scan.fieldProduct?, hconstant, constant?_eq hright, hfield, hn]

/-- Storing a value from a local slot times a multiplier, in a method that has stored nothing yet. -/
theorem store_product {origin : Origin} {productAt : Nat}
    (hproduct : Scan.maker? code (.two origin left right) = some (productAt, .simple n.mulOp))
    (hleft : Scan.maker? code left = some (loadAt, .var op slot))
    (hright : Scan.maker? code right = some (constantAt, .ldc (.ofNumber n))) (hn : n.isMultiplier = true)
    (hother : origin ≠ left.origin) (system : System) :
    (Scan.store code put (.two origin left right) { system }).system = system.observe put (.encoding n) := by
  have hvalue : Scan.constant? code (.two origin left right) = none := by simp only [Scan.constant?, hproduct]
  have hmul : Scan.isProduct code (.two origin left right) = true := by
    rw [Scan.isProduct, Scan.isMadeBy, hproduct]
    cases n <;> rfl
  have hconstant : Scan.constant? code left = none := by simp only [Scan.constant?, hleft]
  have hoperand : Scan.constantOperand? code left right = some ((constantAt, n), left) := by
    simp only [Scan.constantOperand?, hconstant, constant?_eq hright]
  have hstored : ((∅ : Std.HashMap Origin String).insert (Tracked.two origin left right).origin put)[left.origin]? =
      none := by
    rw [Std.HashMap.getElem?_insert, if_neg (by simpa [Tracked.origin] using hother)]
    exact Std.HashMap.getElem?_empty
  simp [Scan.store, hvalue, Scan.distribute, hmul, fieldProduct?_load hleft, hoperand, Scan.countStore, hn, hstored]

/-- What is stored is a product, so its constant is seen as the one with which values of the field are encoded. -/
theorem observeMethod_setter (system : System) :
    observeMethod (e.setter owner) system = (system.observe (e.ref owner).fieldKey (.encoding e.encoder), none) := by
  obtain ⟨locals, v, hanalyze⟩ := e.analyze_storing owner operands (Cancel.times e.encoder)
  let code : Array Instr := #[.var e.encoder.loadOp e.slot, .ldc (.ofNumber e.encoder), .simple e.encoder.mulOp,
    .field Opcode.putStatic (e.ref owner), .simple Opcode.vreturn]
  let loaded : Tracked := .one ⟨v.origin.size, [0]⟩
  let constant : Tracked := .one ⟨e.encoder.kind.size, [1]⟩
  let product : Tracked := .two ⟨e.encoder.kind.size, [2]⟩ loaded constant
  have hcode : (e.setter owner).code.toArray = code := by
    rw [setter, storing, times_eq]
    rfl
  have hloaded : operands.copy 0 (.var e.encoder.loadOp e.slot) v = loaded := by
    cases e.encoder <;> rfl
  rw [hloaded] at hanalyze
  obtain ⟨frames, hanalysis⟩ : ∃ frames, analyze operands (e.setter owner) =
      ⟨[.step 0 ⟨locals, []⟩, .edge 0 1, .step 1 ⟨locals, [loaded]⟩, .edge 1 2, .step 2 ⟨locals, [constant, loaded]⟩,
        .edge 2 3, .step 3 ⟨locals, [product]⟩, .edge 3 4, .step 4 ⟨locals, []⟩], .ok frames⟩ :=
    hanalyze (straight_times e.encoder (e.straight_put owner 3 locals _))
  have hleft : Scan.maker? code loaded = some (0, .var e.encoder.loadOp e.slot) := maker?_eq rfl rfl
  have hright : Scan.maker? code constant = some (1, .ldc (.ofNumber e.encoder)) := maker?_eq rfl rfl
  have hproduct : Scan.maker? code product = some (2, .simple e.encoder.mulOp) := maker?_eq rfl rfl
  have hconstant (s : Scan) : s.afterEvent code (.step 1 ⟨locals, [loaded]⟩) = s := afterEvent_ldc rfl
  have hmultiply (s : Scan) : s.afterEvent code (.step 2 ⟨locals, [constant, loaded]⟩) = s := by
    refine (afterEvent_mul rfl).trans ?_
    rw [Scan.multiply, fieldProduct?_load hleft]
  have hput (s : Scan) :
      s.afterEvent code (.step 3 ⟨locals, [product]⟩) = s.store code (e.ref owner).fieldKey product :=
    afterEvent_put rfl
  have hother : (⟨e.encoder.kind.size, [2]⟩ : Origin) ≠ loaded.origin := by simp [loaded, Tracked.origin]
  simp only [observeMethod, hcode, hanalysis, List.foldl_cons, List.foldl_nil, afterEvent_nil, afterEvent_edge,
    hconstant, hmultiply, hput]
  exact congrArg (·, none) (store_product hproduct hleft hright e.isMultiplier hother system)

/-- What is read is multiplied, so the constant is seen as the one with which values of the field are decoded. -/
theorem observeMethod_getter (system : System) :
    observeMethod (e.getter owner) system = (system.observe (e.ref owner).fieldKey (.decoding e.decoder), none) := by
  obtain ⟨locals, hanalyze⟩ := e.analyze_reading owner operands (Cancel.times e.decoder)
  let code : Array Instr := #[.field Opcode.getStatic (e.ref owner), .ldc (.ofNumber e.decoder),
    .simple e.decoder.mulOp, .simple e.encoder.returnOp]
  let read : Tracked := .one ⟨e.encoder.kind.size, [0]⟩
  let constant : Tracked := .one ⟨e.decoder.kind.size, [1]⟩
  let product : Tracked := .two ⟨e.decoder.kind.size, [2]⟩ read constant
  have hcode : (e.getter owner).code.toArray = code := by
    rw [getter, reading, times_eq]
    rfl
  obtain ⟨frames, hanalysis⟩ : ∃ frames, analyze operands (e.getter owner) =
      ⟨[.step 0 ⟨locals, []⟩, .edge 0 1, .step 1 ⟨locals, [read]⟩, .edge 1 2, .step 2 ⟨locals, [constant, read]⟩,
        .edge 2 3, .step 3 ⟨locals, [product]⟩], .ok frames⟩ :=
    hanalyze (straight_times e.decoder (e.straight_return 3 locals _))
  have hleft : Scan.maker? code read = some (0, .field Opcode.getStatic (e.ref owner)) := maker?_eq rfl rfl
  have hright : Scan.maker? code constant = some (1, .ldc (.ofNumber e.decoder)) := maker?_eq rfl rfl
  have hconstant (s : Scan) : s.afterEvent code (.step 1 ⟨locals, [read]⟩) = s := afterEvent_ldc rfl
  have hmultiply (s : Scan) :
      s.afterEvent code (.step 2 ⟨locals, [constant, read]⟩) = s.multiply code read constant := afterEvent_mul rfl
  have hreturn (s : Scan) : s.afterEvent code (.step 3 ⟨locals, [product]⟩) = s := afterEvent_single rfl
  simp only [observeMethod, hcode, hanalysis, List.foldl_cons, List.foldl_nil, afterEvent_nil, afterEvent_edge,
    hconstant, hmultiply, hreturn, Scan.multiply, fieldProduct?_read hleft hright e.isMultiplier_decoder]
  simp

end Scanning

section Cancelling

open Cancel

variable {decoders : Decoders}

theorem toWidth_decoder : toWidth ((e.ref owner).descriptor == "J") e.decoder = e.decoder := by
  rcases Number.inverse?_cases e.inverse with ⟨_, _, hn, hd, -⟩ | ⟨_, _, hn, hd, -⟩
  · simp [ref, hn, hd, Number.descriptor, toWidth, Number.toInt64]
  · simp [ref, hn, hd, Number.descriptor, toWidth, Number.toInt64]

theorem isNumeric_ref : ((e.ref owner).descriptor == "I" || (e.ref owner).descriptor == "J") = true := by
  rw [ref]
  cases e.encoder <;> rfl

/-- What is inserted for an access to the field. -/
theorem insertions_field {code : Array Instr} {index : Nat} {op : Opcode}
    (h : decoders.lookup (e.ref owner).fieldKey = some e.decoder)
    (hcode : code[index]? = some (.field op (e.ref owner))) :
    insertions decoders code index = access op (e.ref owner) e.decoder index
      (if index = 0 then none else (code[index - 1]?).bind Instr.opcode?) ((code[index + 1]?).bind Instr.opcode?) := by
  simp only [insertions, hcode, isNumeric_ref, h, ↓reduceIte]

/-- In front of the store the stored value is multiplied with the decoder. -/
theorem cancel_setter (h : decoders.lookup (e.ref owner).fieldKey = some e.decoder) :
    cancel decoders (e.setter owner) = .ok (e.storing owner (times e.encoder ++ times e.decoder), 1) := by
  let code : Array Instr := #[.var e.encoder.loadOp e.slot, .ldc (.ofNumber e.encoder), .simple e.encoder.mulOp,
    .field Opcode.putStatic (e.ref owner), .simple Opcode.vreturn]
  have hcode : (e.setter owner).code.toArray = code := by
    rw [setter, storing, times_eq]
    rfl
  have hstore : insertions decoders code 3 = .ok (some [⟨3, times e.decoder⟩]) := by
    rw [e.insertions_field owner h rfl]
    show access Opcode.putStatic (e.ref owner) e.decoder 3 (some e.encoder.mulOp) (some Opcode.vreturn) = _
    have hchained : ¬ (e.encoder.mulOp == chainedDup (Opcode.putStatic == Opcode.putStatic)
        ((e.ref owner).descriptor == "J")) = true := by
      cases (e.ref owner).descriptor == "J" <;> cases e.encoder <;> simp only [Number.mulOp] <;> decide
    have hdup : ¬ isDuplication e.encoder.mulOp = true := by
      cases e.encoder <;> simp only [Number.mulOp] <;> decide
    rw [access, if_neg (by decide), if_pos (by decide)]
    simp only [toWidth_decoder, if_neg hchained, if_neg hdup]
    rfl
  have hfound : (List.range code.size).filterMapM (insertions decoders code) = .ok [[⟨3, times e.decoder⟩]] := by
    show [0, 1, 2, 3, 4].filterMapM (insertions decoders code) = _
    have hothers : ∀ index ∈ [0, 1, 2, 4], insertions decoders code index = .ok none := by
      simp [insertions, code]
    simp [List.filterMapM_cons, hstore, hothers, bind, Except.bind]
    rfl
  rw [cancel, hcode, bind_eq_ok]
  refine ⟨_, hfound, congrArg Except.ok ?_⟩
  simp [insertAll_eq, insertedAt, setter, storing, times_eq, List.zipIdx_cons]

/-- Behind the read the value is multiplied with the encoder. -/
theorem cancel_getter (h : decoders.lookup (e.ref owner).fieldKey = some e.decoder) :
    cancel decoders (e.getter owner) = .ok (e.reading owner (times e.encoder ++ times e.decoder), 1) := by
  let code : Array Instr := #[.field Opcode.getStatic (e.ref owner), .ldc (.ofNumber e.decoder),
    .simple e.decoder.mulOp, .simple e.encoder.returnOp]
  have hcode : (e.getter owner).code.toArray = code := by
    rw [getter, reading, times_eq]
    rfl
  have hread : insertions decoders code 0 = .ok (some [⟨1, times e.encoder⟩]) := by
    rw [e.insertions_field owner h rfl]
    show access Opcode.getStatic (e.ref owner) e.decoder 0 none (some Opcode.ldc) = _
    have hencoder : Cancel.encoder ((e.ref owner).descriptor == "J") e.decoder = .ok e.encoder := by
      rw [Cancel.encoder, toWidth_decoder, Number.inverse, Number.inverse?_symm e.inverse]
      rfl
    simp only [access, hencoder]
    cases (e.ref owner).descriptor == "J" <;> rfl
  have hfound : (List.range code.size).filterMapM (insertions decoders code) = .ok [[⟨1, times e.encoder⟩]] := by
    show [0, 1, 2, 3].filterMapM (insertions decoders code) = _
    have hothers : ∀ index ∈ [1, 2, 3], insertions decoders code index = .ok none := by
      simp [insertions, code]
    simp [List.filterMapM_cons, hread, hothers, bind, Except.bind]
    rfl
  rw [cancel, hcode, bind_eq_ok]
  refine ⟨_, hfound, congrArg Except.ok ?_⟩
  simp [insertAll_eq, insertedAt, getter, reading, times_eq, List.zipIdx_cons]

end Cancelling

end EncodedField

end Multiplier

end Unscramble
