/-
A concrete machine for the code of one method: integers wrap around, fields live in a memory, and branches
and handlers go to labels.  What lies outside the method, such as calls, objects, arrays and floating point
numbers, is a parameter.  An instruction whose operands are not of the right kinds is stuck, and so is
execution that leaves the code.
-/
import Mathlib.Logic.Function.Iterate
import Unscramble.Analysis.Flow
import Unscramble.Proofs.EffectShapes

namespace Unscramble

/-- A value at run time.  Floating point numbers are kept as their bits; null is a reference without an
address. -/
inductive Value where
  | int (value : Int32)
  | long (value : Int64)
  | float (bits : UInt32)
  | double (bits : UInt64)
  | ref (address : Option Nat)
deriving DecidableEq, Repr

namespace Value

def kind : Value → Kind
  | int _ => .int
  | long _ => .long
  | float _ => .float
  | double _ => .double
  | ref _ => .reference

/-- The number of stack slots of the value. -/
def size (v : Value) : Nat :=
  v.kind.size

/-- The value of a numeric constant. -/
def ofConstant? : Constant → Option Value
  | .int v => some (int v)
  | .float bits => some (float bits)
  | .long v => some (long v)
  | .double bits => some (double bits)
  | .string _ | .classRef _ => none

end Value

namespace Number

/-- The kind of the values of the width. -/
def kind : Number → Kind
  | int _ => .int
  | long _ => .long

/-- The product with a value of the same width; any other value stays as it is. -/
def timesValue : Number → Value → Value
  | int n, .int v => .int (v * n)
  | long n, .long v => .long (v * n)
  | _, v => v

@[simp] theorem kind_timesValue (n : Number) (v : Value) : (n.timesValue v).kind = v.kind := by
  cases n <;> cases v <;> rfl

end Number

namespace Opcode

/-- The value that an instruction without operands pushes. -/
def constant? : Opcode → Option Value
  | aconstNull => some (.ref none)
  | iconstM1 => some (.int (-1))
  | iconst0 => some (.int 0)
  | iconst1 => some (.int 1)
  | iconst2 => some (.int 2)
  | iconst3 => some (.int 3)
  | iconst4 => some (.int 4)
  | iconst5 => some (.int 5)
  | lconst0 => some (.long 0)
  | lconst1 => some (.long 1)
  | fconst0 => some (.float 0)
  | fconst1 => some (.float 0x3f800000)
  | fconst2 => some (.float 0x40000000)
  | dconst0 => some (.double 0)
  | dconst1 => some (.double 0x3ff0000000000000)
  | _ => none

/-- Negations and conversions of integers. -/
def unary? : Opcode → Value → Option Value
  | ineg, .int a => some (.int (-a))
  | lneg, .long a => some (.long (-a))
  | i2l, .int a => some (.long a.toInt64)
  | l2i, .long a => some (.int a.toInt32)
  | i2b, .int a => some (.int a.toInt8.toInt32)
  | i2c, .int a => some (.int a.toUInt32.toUInt16.toUInt32.toInt32)
  | i2s, .int a => some (.int a.toInt16.toInt32)
  | _, _ => none

/-- Operations on two integers of four bytes. -/
def intOperation? : Opcode → Option (Int32 → Int32 → Int32)
  | iadd => some (· + ·)
  | isub => some (· - ·)
  | imul => some (· * ·)
  | ishl => some (· <<< ·)
  | ishr => some (· >>> ·)
  | iushr => some fun a b => (a.toUInt32 >>> b.toUInt32).toInt32
  | iand => some (· &&& ·)
  | ior => some (· ||| ·)
  | ixor => some (· ^^^ ·)
  | _ => none

/-- Operations on two integers of eight bytes. -/
def longOperation? : Opcode → Option (Int64 → Int64 → Int64)
  | ladd => some (· + ·)
  | lsub => some (· - ·)
  | lmul => some (· * ·)
  | land => some (· &&& ·)
  | lor => some (· ||| ·)
  | lxor => some (· ^^^ ·)
  | _ => none

/-- Shifts of an integer of eight bytes. -/
def longShift? : Opcode → Option (Int64 → Int32 → Int64)
  | lshl => some fun a b => a <<< b.toInt64
  | lshr => some fun a b => a >>> b.toInt64
  | lushr => some fun a b => (a.toUInt64 >>> b.toInt64.toUInt64).toInt64
  | _ => none

/-- Whether the machine itself computes what the instruction pushes. -/
def isComputed (op : Opcode) : Bool :=
  op.between aconstNull dconst1 || op.between ishl lxor || op.between i2b lcmp ||
    op ∈ [iadd, ladd, isub, lsub, imul, lmul, ineg, lneg, i2l, l2i]

/-- What the machine computes from operands, the top of the stack coming first. -/
def compute (op : Opcode) : List Value → Option Value
  | [] => op.constant?
  | [a] => op.unary? a
  | [.int b, .int a] => op.intOperation?.map fun f => .int (f a b)
  | [.long b, .long a] =>
      if op == lcmp then some (.int (if a < b then -1 else if a = b then 0 else 1))
      else op.longOperation?.map fun f => .long (f a b)
  | [.int b, .long a] => op.longShift?.map fun f => .long (f a b)
  | _ => none

/-- The comparisons in the order of the conditional jumps that make them. -/
def holds (relation : UInt8) (a b : Int32) : Bool :=
  match relation with
  | 0 => a = b
  | 1 => a ≠ b
  | 2 => a < b
  | 3 => b ≤ a
  | 4 => b < a
  | _ => a ≤ b

/-- Whether a jump is taken, given its operands. -/
def taken? (op : Opcode) : List Value → Option Bool
  | [] => if op == goto then some true else none
  | [.int a] => if op.between ifeq ifle then some (holds (op - ifeq) a 0) else none
  | [.int b, .int a] =>
      if op.between ifIcmpEq ifIcmpLe then some (holds (op - ifIcmpEq) a b) else none
  | [.ref a] =>
      if op == ifNull then some a.isNone else if op == ifNonNull then some a.isSome else none
  | [.ref b, .ref a] =>
      if op == ifAcmpEq then some (a == b) else if op == ifAcmpNe then some (a != b) else none
  | _ => none

/-- The kind of the values that an instruction moves between the stack and a local slot. -/
def localKind (op : Opcode) : Kind :=
  match op with
  | iload | istore => .int
  | lload | lstore => .long
  | fload | fstore => .float
  | dload | dstore => .double
  | _ => .reference

end Opcode

/-- The kind of the values that an instruction moves between the stack and a local slot, if it does. -/
def Instr.localKind? : Instr → Option Kind
  | .var op _ => some op.localKind
  | _ => none

/-- Where a field is kept: with its class, or with an object. -/
structure Place where
  object : Option Nat
  field : MemberRef
deriving DecidableEq, Repr

/-- The contents of the fields, and whatever else there is to remember. -/
structure Memory (σ : Type) where
  fields : Place → Value
  rest : σ

/-- Puts a value into a field. -/
def Memory.set {σ : Type} (memory : Memory σ) (place : Place) (v : Value) : Memory σ :=
  { memory with fields := fun p => if p = place then v else memory.fields p }

/-- How an action outside the method ends: with a result, if it has one, or with an exception. -/
inductive Reply (σ : Type) where
  | done (result : Option Value) (memory : Memory σ)
  | thrown (exception : Value) (memory : Memory σ)

/-- All that is outside the method. -/
structure World (σ : Type) where
  /-- What an instruction of which the machine has no knowledge of its own does with its operands, the top
  of the stack coming first. -/
  act : Instr → List Value → Memory σ → Option (Reply σ)
  /-- The exception for an access through null. -/
  nullAccess : Memory σ → Value × Memory σ
  /-- Whether a handler for a type, or for all of them, takes an exception. -/
  catches : Option String → Value → Memory σ → Bool

/-- The kind of the values of a field, if its descriptor is one. -/
def MemberRef.kind? (ref : MemberRef) : Option Kind :=
  match Descriptor.fieldType ref.descriptor with
  | .ok type => Kind.ofType? type
  | .error _ => none

namespace Machine

variable {σ : Type}

/-- What an instruction makes of its operands: a result, if it has one, an exception, or a jump. -/
inductive Outcome (σ : Type) where
  | done (result : Option Value) (memory : Memory σ)
  | thrown (exception : Value) (memory : Memory σ)
  | jump (target : Label)

def Outcome.ofReply : Reply σ → Outcome σ
  | .done result memory => done result memory
  | .thrown exception memory => thrown exception memory

/-- An instruction that the world carries out. -/
def act (w : World σ) (instr : Instr) (operands : List Value) (memory : Memory σ) :
    Option (Outcome σ) :=
  (w.act instr operands memory).map Outcome.ofReply

/-- The exception for an access through null. -/
def nullAccess (w : World σ) (memory : Memory σ) : Outcome σ :=
  .thrown (w.nullAccess memory).1 (w.nullAccess memory).2

/-- Reads or writes a field. -/
def access (w : World σ) (op : Opcode) (ref : MemberRef) (operands : List Value)
    (memory : Memory σ) : Option (Outcome σ) :=
  match op, operands with
  | Opcode.getStatic, [] => some (.done (some (memory.fields ⟨none, ref⟩)) memory)
  | Opcode.getField, [.ref none] => some (nullAccess w memory)
  | Opcode.getField, [.ref (some a)] => some (.done (some (memory.fields ⟨some a, ref⟩)) memory)
  | Opcode.putStatic, [v] =>
      if ref.kind? = some v.kind then some (.done none (memory.set ⟨none, ref⟩ v)) else none
  | Opcode.putField, [v, .ref object] =>
      if ref.kind? = some v.kind then
        match object with
        | none => some (nullAccess w memory)
        | some a => some (.done none (memory.set ⟨some a, ref⟩ v))
      else none
  | _, _ => none

/-- What an instruction does with its operands, the top of the stack coming first. -/
def operate (w : World σ) (instr : Instr) (operands : List Value) (memory : Memory σ) :
    Option (Outcome σ) :=
  match instr with
  | .label _ | .line _ => some (.done none memory)
  | .simple op =>
      if op == Opcode.nop then some (.done none memory)
      else if op.isComputed then (op.compute operands).map fun v => .done (some v) memory
      else act w instr operands memory
  | .int op operand =>
      if op == Opcode.bipush || op == Opcode.sipush then some (.done (some (.int operand)) memory)
      else if op == Opcode.newArray then act w instr operands memory
      else none
  | .ldc constant =>
      match Value.ofConstant? constant with
      | some v => some (.done (some v) memory)
      | none => act w instr operands memory
  | .field op ref => access w op ref operands memory
  | .jump op target =>
      (op.taken? operands).map fun taken => if taken then .jump target else .done none memory
  | .tableSwitch low high fallback targets =>
      match operands with
      | [.int v] =>
          some (.jump (if low ≤ v ∧ v ≤ high then
            (targets[(v.toInt - low.toInt).toNat]?).getD fallback else fallback))
      | _ => none
  | .lookupSwitch fallback keys targets =>
      match operands with
      | [.int v] => some (.jump (((keys.zip targets).lookup v).getD fallback))
      | _ => none
  | .method op _ _ =>
      if op.between Opcode.invokeVirtual Opcode.invokeInterface then act w instr operands memory
      else none
  | _ => act w instr operands memory

/-- What a method works on. -/
structure Store (σ : Type) where
  locals : UInt16 → Value
  stack : List Value
  memory : Memory σ

/-- Sets a local slot. -/
def Store.setLocal (s : Store σ) (slot : UInt16) (v : Value) : Store σ :=
  { s with locals := fun other => if other = slot then v else s.locals other }

/-- What an instruction makes of a store, and where execution goes on. -/
inductive Action (σ : Type) where
  | next (s : Store σ)
  | jump (target : Label) (s : Store σ)
  | leave (result : Option Value) (memory : Memory σ)
  | throw (exception : Value) (memory : Memory σ)
  | stuck

/-- Puts what became of the operands in their place.  A result must be of the kind that the effect of the
instruction announces. -/
def finish (s : Store σ) (rest : List Value) (kind : Option Kind) : Option (Outcome σ) → Action σ
  | some (.done result memory) =>
      if result.map Value.kind = kind then
        .next { s with stack := result.toList ++ rest, memory := memory }
      else .stuck
  | some (.thrown exception memory) => .throw exception memory
  | some (.jump target) => .jump target { s with stack := rest }
  | none => .stuck

/-- Executes an instruction with the given effect. -/
def execWith (w : World σ) (instr : Instr) (s : Store σ) (effect : Effect) : Action σ :=
  match effect.operands? with
  | some count =>
      if s.stack.length < count then .stuck
      else finish s (s.stack.drop count) effect.result?
        (operate w instr (s.stack.take count) s.memory)
  | none =>
      match effect, s.stack with
      | .load slot, stack =>
          if instr.localKind? = some (s.locals slot).kind then
            .next { s with stack := s.locals slot :: stack }
          else .stuck
      | .store slot, v :: rest =>
          if instr.localKind? = some v.kind then .next ({ s with stack := rest }.setLocal slot v)
          else .stuck
      | .iinc slot, _ =>
          match instr, s.locals slot with
          | .iinc _ delta, .int v => .next (s.setLocal slot (.int (v + delta.toInt32)))
          | _, _ => .stuck
      | .leave false, _ => .leave none s.memory
      | .leave true, v :: _ => .leave (some v) s.memory
      | .throw, .ref none :: _ => .throw (w.nullAccess s.memory).1 (w.nullAccess s.memory).2
      | .throw, .ref (some a) :: _ => .throw (.ref (some a)) s.memory
      | moving, stack =>
          match Frame.shuffle Value.size id moving stack with
          | some stack => .next { s with stack := stack }
          | none => .stuck

/-- Executes an instruction. -/
def exec (w : World σ) (instr : Instr) (s : Store σ) : Action σ :=
  match Effect.ofInstr instr with
  | .ok effect => execWith w instr s effect
  | .error _ => .stuck

section Shapes

variable {w : World σ} {instr : Instr} {s : Store σ} {effect : Effect} {slot : UInt16}

/-- An instruction that replaces its operands by its result. -/
theorem execWith_operands {count : Nat} (hcount : effect.operands? = some count) :
    execWith w instr s effect =
      if s.stack.length < count then .stuck
      else finish s (s.stack.drop count) effect.result? (operate w instr (s.stack.take count) s.memory) := by
  unfold execWith
  rw [hcount]

/-- An instruction that only moves values. -/
theorem execWith_moving (hmoving : effect.isMoving) :
    execWith w instr s effect =
      match Frame.shuffle Value.size id effect s.stack with
      | some stack => .next { s with stack := stack }
      | none => .stuck := by
  cases effect with
  | pop | pop2 | dup | dupX1 | dupX2 | dup2 | dup2X1 | dup2X2 | swap => rfl
  | _ => cases hmoving

theorem execWith_load :
    execWith w instr s (.load slot) =
      if instr.localKind? = some (s.locals slot).kind then .next { s with stack := s.locals slot :: s.stack }
      else .stuck := rfl

theorem execWith_store (locals : UInt16 → Value) (v : Value) (rest : List Value) (memory : Memory σ) :
    execWith w instr ⟨locals, v :: rest, memory⟩ (.store slot) =
      if instr.localKind? = some v.kind then .next (Store.setLocal ⟨locals, rest, memory⟩ slot v)
      else .stuck := rfl

/-- What an increment writes depends on the local slots alone. -/
theorem exists_execWith_iinc (instr : Instr) (locals : UInt16 → Value) (slot : UInt16) :
    ∃ written : Option Int32, ∀ {σ : Type} (w : World σ) (s : Store σ), s.locals = locals →
      execWith w instr s (.iinc slot) =
        match written with
        | some n => .next (s.setLocal slot (.int n))
        | none => .stuck := by
  cases instr with
  | iinc index delta =>
      cases hvalue : locals slot with
      | int v =>
          refine ⟨some (v + delta.toInt32), fun w s hlocals => ?_⟩
          unfold execWith
          dsimp only [Effect.operands?]
          rw [hlocals, hvalue]
      | _ =>
          refine ⟨none, fun w s hlocals => ?_⟩
          unfold execWith
          dsimp only [Effect.operands?]
          rw [hlocals, hvalue]
  | _ => exact ⟨none, fun w s _ => rfl⟩

end Shapes

/-- How far a run has come. -/
inductive Config (σ : Type) where
  | running (pc : Nat) (s : Store σ)
  | returned (result : Option Value) (memory : Memory σ)
  | thrown (exception : Value) (memory : Memory σ)
  | stuck

/-- The index of the instruction that comes next, while there is one. -/
def Config.pc? : Config σ → Option Nat
  | running pc _ => some pc
  | _ => none

/-- The handler for an exception that an instruction throws: that of the first range that covers it and
takes the exception. -/
def handler? (w : World σ) (m : MethodDecl) (pc : Nat) (exception : Value) (memory : Memory σ) :
    Option Nat :=
  m.tries.findSome? fun block => do
    let start ← place? (labelPlaces m.code) block.start
    let stop ← place? (labelPlaces m.code) block.stop
    if start ≤ pc ∧ pc < stop ∧ w.catches block.catchType exception memory then
      place? (labelPlaces m.code) block.handler
    else none

/-- Where a run goes on after what the instruction at `pc` did; the locals are those before it.  Only
references can be thrown. -/
def proceed (w : World σ) (m : MethodDecl) (pc : Nat) (locals : UInt16 → Value) :
    Action σ → Config σ
  | .next s => .running (pc + 1) s
  | .jump target s =>
      match place? (labelPlaces m.code) target with
      | some index => .running index s
      | none => .stuck
  | .leave result memory => .returned result memory
  | .throw exception memory =>
      if exception.kind = .reference then
        match handler? w m pc exception memory with
        | some index => .running index ⟨locals, [exception], memory⟩
        | none => .thrown exception memory
      else .stuck
  | .stuck => .stuck

/-- One step of a run. -/
def step (w : World σ) (m : MethodDecl) : Config σ → Config σ
  | .running pc s =>
      match m.code[pc]? with
      | some instr => proceed w m pc s.locals (exec w instr s)
      | none => .stuck
  | ended => ended

/-- A run of so many steps. -/
def run (w : World σ) (m : MethodDecl) (steps : Nat) (c : Config σ) : Config σ :=
  (step w m)^[steps] c

/-- The instructions that the first steps of a run execute, in order. -/
def path (w : World σ) (m : MethodDecl) (steps : Nat) (c : Config σ) : List Nat :=
  (List.range steps).filterMap fun done => (run w m done c).pc?

variable {w : World σ} {m : MethodDecl} {c : Config σ}

@[simp] theorem run_zero : run w m 0 c = c := rfl

@[simp] theorem path_zero : path w m 0 c = [] := rfl

theorem run_add (first last : Nat) : run w m (first + last) c = run w m last (run w m first c) := by
  rw [run, Nat.add_comm, Function.iterate_add_apply]
  rfl

theorem path_add (first last : Nat) :
    path w m (first + last) c = path w m first c ++ path w m last (run w m first c) := by
  simp only [path, List.range_add, List.filterMap_append, List.filterMap_map, Function.comp_def,
    run_add]

theorem step_of_ended (h : c.pc? = none) : step w m c = c := by
  cases c with
  | running pc s => cases h
  | _ => rfl

/-- A run that has ended stays as it is. -/
theorem run_of_ended (h : c.pc? = none) (steps : Nat) : run w m steps c = c :=
  Function.iterate_fixed (step_of_ended h) steps

/-- A step from which a run goes on is that of an instruction. -/
theorem exists_pc_of_step {pc : Nat} (h : (step w m c).pc? = some pc) :
    ∃ pc', c.pc? = some pc' ∧ pc' < m.code.length := by
  cases c with
  | running pc' s =>
      refine ⟨pc', rfl, ?_⟩
      by_contra hge
      rw [step, List.getElem?_eq_none (Nat.le_of_not_lt hge)] at h
      cases h
  | _ => cases h

/-- A run that has ended after some steps is still ended after more of them. -/
theorem run_of_le {steps more : Nat} (hended : (run w m steps c).pc? = none) (hle : steps ≤ more) :
    run w m more c = run w m steps c := by
  obtain ⟨extra, rfl⟩ := Nat.exists_eq_add_of_le hle
  rw [run_add, run_of_ended hended]

theorem path_of_ended (h : c.pc? = none) (steps : Nat) : path w m steps c = [] := by
  rw [path, List.filterMap_eq_nil_iff]
  intro done _
  rw [run_of_ended h, h]

/-- A run that executes the instructions of a trail, in order, leads from one configuration to another. -/
def Leads (w : World σ) (m : MethodDecl) (c : Config σ) (trail : List Nat) (c' : Config σ) : Prop :=
  run w m trail.length c = c' ∧ path w m trail.length c = trail

theorem Leads.refl (c : Config σ) : Leads w m c [] c := ⟨rfl, rfl⟩

theorem Leads.trans {first last : List Nat} {c' c'' : Config σ} (h : Leads w m c first c')
    (h' : Leads w m c' last c'') : Leads w m c (first ++ last) c'' := by
  constructor
  · rw [List.length_append, run_add, h.1, h'.1]
  · rw [List.length_append, path_add, h.1, h.2, h'.2]

/-- One step. -/
theorem Leads.single {pc : Nat} {s : Store σ} {instr : Instr} (h : m.code[pc]? = some instr) :
    Leads w m (.running pc s) [pc] (proceed w m pc s.locals (exec w instr s)) := by
  refine ⟨?_, rfl⟩
  show step w m (.running pc s) = _
  rw [step, h]

/-- A run that leaves the code is stuck. -/
theorem Leads.off {pc : Nat} {s : Store σ} (h : m.code[pc]? = none) :
    Leads w m (.running pc s) [pc] .stuck := by
  refine ⟨?_, rfl⟩
  show step w m (.running pc s) = _
  rw [step, h]

section Keeping

variable {m' : MethodDecl} {R : Config σ → Config σ → Prop} {c' : Config σ}

/-- Another method keeps up with a method: from related configurations it takes some steps for each step of the method,
to related ones again.  It takes none only where the method goes on with the next instruction. -/
def KeepsUp (w : World σ) (m m' : MethodDecl) (R : Config σ → Config σ → Prop) : Prop :=
  ∀ c c', R c c' → ∃ count, R (step w m c) (run w m' count c') ∧
    (count = 0 → ∀ pc, c.pc? = some pc → (step w m c).pc? = some (pc + 1))

/-- It keeps up with every run, and falls behind by no more steps than the method has instructions for each of its
own. -/
theorem KeepsUp.run (h : KeepsUp w m m' R) (hrelated : R c c') (steps : Nat) : ∃ count,
    R (run w m steps c) (run w m' count c') ∧
      ∀ pc, (run w m steps c).pc? = some pc → steps ≤ count * (m.code.length + 1) + pc := by
  induction steps with
  | zero => exact ⟨0, hrelated, fun _ _ => Nat.zero_le _⟩
  | succ steps ih =>
      obtain ⟨count, hreached, hbound⟩ := ih
      obtain ⟨more, hnext, hnone⟩ := h _ _ hreached
      have hsucc : Machine.run w m (steps + 1) c = step w m (Machine.run w m steps c) := run_add steps 1
      rw [hsucc]
      refine ⟨count + more, by rwa [run_add], fun pc hpc => ?_⟩
      obtain ⟨pc', hpc', hlt⟩ := exists_pc_of_step hpc
      have hsteps := hbound pc' hpc'
      rcases Nat.eq_zero_or_pos more with rfl | hpos
      · have hsame : pc = pc' + 1 := Option.some.inj (hpc.symm.trans (hnone rfl pc' hpc'))
        show steps + 1 ≤ count * (m.code.length + 1) + pc
        omega
      · have hmul : (count + 1) * (m.code.length + 1) ≤ (count + more) * (m.code.length + 1) :=
          Nat.mul_le_mul_right _ (by omega)
        rw [Nat.succ_mul] at hmul
        omega

/-- Where the method runs forever, the other one takes as many steps as one likes. -/
theorem KeepsUp.exists_ge (h : KeepsUp w m m' R) (hrelated : R c c')
    (hforever : ∀ steps, (Machine.run w m steps c).pc? ≠ none) (count : Nat) : ∃ steps more, count ≤ more ∧
      R (Machine.run w m steps c) (Machine.run w m' more c') := by
  -- so many steps of the method take at least `count` of the other one
  let steps := count * (m.code.length + 1) + m.code.length
  obtain ⟨more, hreached, hbound⟩ := h.run hrelated steps
  refine ⟨steps, more, ?_, hreached⟩
  have hnext := hforever (steps + 1)
  rw [run_add] at hnext
  obtain ⟨next, hnext⟩ := Option.ne_none_iff_exists'.1 hnext
  obtain ⟨pc, hpc, hlt⟩ := exists_pc_of_step hnext
  have hsteps : count * (m.code.length + 1) + m.code.length ≤ more * (m.code.length + 1) + pc := hbound pc hpc
  by_contra hmore
  have hmul : more * (m.code.length + 1) + (m.code.length + 1) ≤ count * (m.code.length + 1) := by
    rw [← Nat.succ_mul]
    exact Nat.mul_le_mul_right _ (by omega)
  omega

end Keeping

/-- The result of an instruction must be of the kind that the instruction announces. -/
theorem finish_result (s : Store σ) (rest : List Value) (kind : Kind) (v : Value) (memory : Memory σ) :
    finish s rest (some kind) (some (.done (some v) memory)) =
      if v.kind = kind then .next { s with stack := v :: rest, memory := memory } else .stuck := by
  simp [finish]

section Accesses

variable {ref : MemberRef} {kind : Kind} {locals : UInt16 → Value} {stack rest : List Value} {memory : Memory σ}

theorem ofInstr_field (h : ref.kind? = some kind) (op : Opcode) :
    Effect.ofInstr (.field op ref) = Effect.ofFieldAccess op kind := by
  unfold MemberRef.kind? at h
  split at h
  · next type htype => simp only [Effect.ofInstr, htype, h]
  · cases h

theorem exec_getStatic (h : ref.kind? = some kind) :
    exec w (.field Opcode.getStatic ref) ⟨locals, stack, memory⟩ =
      if (memory.fields ⟨none, ref⟩).kind = kind then
        .next ⟨locals, memory.fields ⟨none, ref⟩ :: stack, memory⟩
      else .stuck := by
  rw [exec, ofInstr_field h]
  exact finish_result _ stack kind _ memory

theorem exec_getField (h : ref.kind? = some kind) (address : Nat) :
    exec w (.field Opcode.getField ref) ⟨locals, .ref (some address) :: rest, memory⟩ =
      if (memory.fields ⟨some address, ref⟩).kind = kind then
        .next ⟨locals, memory.fields ⟨some address, ref⟩ :: rest, memory⟩
      else .stuck := by
  rw [exec, ofInstr_field h]
  exact finish_result _ rest kind _ memory

theorem exec_getField_null (h : ref.kind? = some kind) :
    exec w (.field Opcode.getField ref) ⟨locals, .ref none :: rest, memory⟩ =
      .throw (w.nullAccess memory).1 (w.nullAccess memory).2 := by
  rw [exec, ofInstr_field h]
  rfl

/-- A read through anything but a reference is stuck. -/
theorem exec_getField_cases (h : ref.kind? = some kind) (s : Store σ) :
    exec w (.field Opcode.getField ref) s = .stuck ∨
      ∃ object rest, s.stack = .ref object :: rest := by
  obtain ⟨locals, stack, memory⟩ := s
  rw [exec, ofInstr_field h]
  rcases stack with _ | ⟨_ | _ | _ | _ | object, rest⟩
  · exact .inl rfl
  · exact .inl rfl
  · exact .inl rfl
  · exact .inl rfl
  · exact .inl rfl
  · exact .inr ⟨object, rest, rfl⟩

theorem exec_putStatic {v : Value} (h : ref.kind? = some v.kind) :
    exec w (.field Opcode.putStatic ref) ⟨locals, v :: rest, memory⟩ =
      .next ⟨locals, rest, memory.set ⟨none, ref⟩ v⟩ := by
  rw [exec, ofInstr_field h]
  show finish _ rest none (if ref.kind? = some v.kind then
    some (.done none (memory.set ⟨none, ref⟩ v)) else none) = _
  rw [if_pos h]
  rfl

theorem exec_putStatic_cases (h : ref.kind? = some kind) (s : Store σ) :
    exec w (.field Opcode.putStatic ref) s = .stuck ∨
      ∃ v rest, s.stack = v :: rest ∧ v.kind = kind := by
  obtain ⟨locals, stack, memory⟩ := s
  rcases stack with _ | ⟨v, rest⟩
  · rw [exec, ofInstr_field h]
    exact .inl rfl
  · by_cases hkind : v.kind = kind
    · exact .inr ⟨v, rest, rfl, hkind⟩
    · rw [exec, ofInstr_field h]
      show finish _ rest none (if ref.kind? = some v.kind then
        some (.done none (memory.set ⟨none, ref⟩ v)) else none) = _ ∨ _
      rw [if_neg (by rw [h, Option.some.injEq]; exact fun heq => hkind heq.symm)]
      exact .inl rfl

theorem exec_putField {v : Value} (h : ref.kind? = some v.kind) (address : Nat) :
    exec w (.field Opcode.putField ref) ⟨locals, v :: .ref (some address) :: rest, memory⟩ =
      .next ⟨locals, rest, memory.set ⟨some address, ref⟩ v⟩ := by
  rw [exec, ofInstr_field h]
  show finish _ rest none (if ref.kind? = some v.kind then
    some (.done none (memory.set ⟨some address, ref⟩ v)) else none) = _
  rw [if_pos h]
  rfl

theorem exec_putField_null {v : Value} (h : ref.kind? = some v.kind) :
    exec w (.field Opcode.putField ref) ⟨locals, v :: .ref none :: rest, memory⟩ =
      .throw (w.nullAccess memory).1 (w.nullAccess memory).2 := by
  rw [exec, ofInstr_field h]
  show finish _ rest none (if ref.kind? = some v.kind then some (nullAccess w memory) else none) = _
  rw [if_pos h]
  rfl

theorem exec_putField_cases (h : ref.kind? = some kind) (s : Store σ) :
    exec w (.field Opcode.putField ref) s = .stuck ∨
      ∃ v object rest, s.stack = v :: .ref object :: rest ∧ v.kind = kind := by
  obtain ⟨locals, stack, memory⟩ := s
  by_cases hshape : ∃ v object rest, stack = v :: .ref object :: rest
  · obtain ⟨v, object, rest, rfl⟩ := hshape
    by_cases hkind : v.kind = kind
    · exact .inr ⟨v, object, rest, rfl, hkind⟩
    · rw [exec, ofInstr_field h]
      show finish _ rest none (if ref.kind? = some v.kind then _ else none) = _ ∨ _
      rw [if_neg (by rw [h, Option.some.injEq]; exact fun heq => hkind heq.symm)]
      exact .inl rfl
  · rw [exec, ofInstr_field h]
    rcases stack with _ | ⟨v, _ | ⟨object, rest⟩⟩
    · exact .inl rfl
    · exact .inl rfl
    · cases object with
      | ref object => exact absurd ⟨v, object, rest, rfl⟩ hshape
      | _ => exact .inl rfl

end Accesses

end Machine

end Unscramble
