/-
Memories in which the fields with a decoder hold their contents times the decoder.  An instruction that does
not access such a field does the same in both memories, as long as the world does.  A read gives the product,
and a store of the product gives the encoded memory.
-/
import Unscramble.Proofs.CancelLayout
import Unscramble.Proofs.Inverse

namespace Unscramble

open Multiplier

namespace Number

theorem kind_inverse {n inverse : Number} (h : n.inverse? = some inverse) :
    inverse.kind = n.kind := by
  cases n <;> simp only [inverse?, Option.map_eq_some_iff] at h <;> obtain ⟨_, -, rfl⟩ := h <;> rfl

/-- A product is undone by the inverse. -/
theorem timesValue_inverse {n inverse : Number} (h : n.inverse? = some inverse) (v : Value) :
    inverse.timesValue (n.timesValue v) = v := by
  cases n with
  | int a =>
      cases inverse with
      | int b =>
          have hone : a * b = 1 := int_mul_inverse h
          cases v <;> simp [timesValue, Int32.mul_assoc, hone]
      | long b => simp [inverse?] at h
  | long a =>
      cases inverse with
      | long b =>
          have hone : a * b = 1 := long_mul_inverse h
          cases v <;> simp [timesValue, Int64.mul_assoc, hone]
      | int b => simp [inverse?] at h

end Number

/-- The value that a field holds for a plain one: times the decoder, if the field has one. -/
def encoded (decoders : Decoders) (ref : MemberRef) (v : Value) : Value :=
  match Cancel.factor? decoders ref with
  | some n => n.timesValue v
  | none => v

variable {σ : Type}

/-- The memory with encoded fields. -/
def Memory.encode (decoders : Decoders) (memory : Memory σ) : Memory σ :=
  { memory with fields := fun place => encoded decoders place.field (memory.fields place) }

def Reply.encode (decoders : Decoders) : Reply σ → Reply σ
  | done result memory => done result (memory.encode decoders)
  | thrown exception memory => thrown exception (memory.encode decoders)

/-- Two worlds that do the same, the second one with encoded fields. -/
structure World.Recodes (decoders : Decoders) (w w' : World σ) : Prop where
  act : ∀ instr operands memory,
    w'.act instr operands (memory.encode decoders) =
      (w.act instr operands memory).map (Reply.encode decoders)
  nullAccess : ∀ memory, w'.nullAccess (memory.encode decoders) =
    ((w.nullAccess memory).1, (w.nullAccess memory).2.encode decoders)
  catches : ∀ type exception memory, w'.catches type exception (memory.encode decoders) =
    w.catches type exception memory

@[simp] theorem Memory.encode_set (decoders : Decoders) (memory : Memory σ) (place : Place) (v : Value) :
    (memory.set place v).encode decoders =
      (memory.encode decoders).set place (encoded decoders place.field v) := by
  simp only [Memory.encode, Memory.set, Memory.mk.injEq, and_true]
  funext p
  by_cases h : p = place <;> simp [h]

namespace Machine

def Outcome.encode (decoders : Decoders) : Outcome σ → Outcome σ
  | done result memory => done result (memory.encode decoders)
  | thrown exception memory => thrown exception (memory.encode decoders)
  | jump target => jump target

/-- The store with encoded fields. -/
def Store.encode (decoders : Decoders) (s : Store σ) : Store σ :=
  { s with memory := s.memory.encode decoders }

def Action.encode (decoders : Decoders) : Action σ → Action σ
  | next s => next (s.encode decoders)
  | jump target s => jump target (s.encode decoders)
  | leave result memory => leave result (memory.encode decoders)
  | throw exception memory => throw exception (memory.encode decoders)
  | stuck => stuck

variable {decoders : Decoders} {w w' : World σ}

theorem act_encode (h : World.Recodes decoders w w') (instr : Instr) (operands : List Value)
    (memory : Memory σ) : act w' instr operands (memory.encode decoders) =
      (act w instr operands memory).map (Outcome.encode decoders) := by
  rw [act, act, h.act]
  cases w.act instr operands memory with
  | none => rfl
  | some reply => cases reply <;> rfl

theorem nullAccess_encode (h : World.Recodes decoders w w') (memory : Memory σ) :
    nullAccess w' (memory.encode decoders) = (nullAccess w memory).encode decoders := by
  rw [nullAccess, nullAccess, h.nullAccess]
  rfl

theorem finish_encode (s : Store σ) (rest : List Value) (kind : Option Kind)
    (outcome : Option (Outcome σ)) :
    finish (s.encode decoders) rest kind (outcome.map (Outcome.encode decoders)) =
      (finish s rest kind outcome).encode decoders := by
  rcases outcome with _ | (⟨result, memory⟩ | _ | _)
  · rfl
  · simp only [Option.map_some, Outcome.encode, finish]
    split <;> rfl
  · rfl
  · rfl

/-- Access to a field without a factor. -/
theorem access_encode (h : World.Recodes decoders w w') {ref : MemberRef}
    (hfactor : Cancel.factor? decoders ref = none) (op : Opcode) (operands : List Value)
    (memory : Memory σ) : access w' op ref operands (memory.encode decoders) =
      (access w op ref operands memory).map (Outcome.encode decoders) := by
  have hplain : ∀ v, encoded decoders ref v = v := by
    intro v
    rw [encoded, hfactor]
  unfold access
  split
  · simp [Outcome.encode, Memory.encode, hplain]
  · simp [nullAccess_encode h]
  · simp [Outcome.encode, Memory.encode, hplain]
  · split <;> simp [Outcome.encode, *]
  · split
    · split <;> simp [Outcome.encode, nullAccess_encode h, *]
    · simp [*]
  · rfl

theorem operate_encode (h : World.Recodes decoders w w') {instr : Instr}
    (hplain : ∀ op ref, instr = .field op ref → Cancel.factor? decoders ref = none)
    (operands : List Value) (memory : Memory σ) :
    operate w' instr operands (memory.encode decoders) =
      (operate w instr operands memory).map (Outcome.encode decoders) := by
  cases instr with
  | simple op =>
      simp only [operate, act_encode h]
      split
      · rfl
      · split
        · cases op.compute operands <;> rfl
        · rfl
  | int op operand =>
      simp only [operate, act_encode h]
      split
      · rfl
      · split <;> rfl
  | ldc constant =>
      simp only [operate, act_encode h]
      cases Value.ofConstant? constant <;> rfl
  | field op ref => exact access_encode h (hplain op ref rfl) op operands memory
  | jump op target =>
      simp only [operate]
      cases op.taken? operands with
      | none => rfl
      | some taken => cases taken <;> rfl
  | tableSwitch low high fallback targets =>
      simp only [operate]
      split <;> rfl
  | lookupSwitch fallback keys targets =>
      simp only [operate]
      split <;> rfl
  | method op ref onInterface =>
      simp only [operate, act_encode h]
      split <;> rfl
  | label _ | line _ => rfl
  | var _ _ | iinc _ _ | type _ _ | multiNewArray _ _ => exact act_encode h _ operands memory

theorem execWith_encode (h : World.Recodes decoders w w') {instr : Instr}
    (hplain : ∀ op ref, instr = .field op ref → Cancel.factor? decoders ref = none)
    (effect : Effect) (s : Store σ) :
    execWith w' instr (s.encode decoders) effect = (execWith w instr s effect).encode decoders := by
  cases effect using Effect.byShape with
  | operands effect count hcount =>
      rw [execWith_operands hcount, execWith_operands hcount]
      show (if s.stack.length < count then _ else _) = _
      split
      · rfl
      · rw [← finish_encode, ← operate_encode h hplain]
        rfl
  | moving effect hmoving =>
      rw [execWith_moving hmoving, execWith_moving hmoving, show (s.encode decoders).stack = s.stack from rfl]
      split <;> rfl
  | load slot =>
      rw [execWith_load, execWith_load]
      show (if instr.localKind? = some (s.locals slot).kind then _ else _) = _
      split <;> rfl
  | store slot =>
      obtain ⟨locals, _ | ⟨v, rest⟩, memory⟩ := s
      · rfl
      · rw [Store.encode, execWith_store, execWith_store]
        split <;> rfl
  | iinc slot =>
      obtain ⟨written, hwritten⟩ := exists_execWith_iinc instr s.locals slot
      rw [hwritten w s rfl, hwritten w' (s.encode decoders) rfl]
      split <;> rfl
  | exit effect hexit =>
      obtain ⟨locals, stack, memory⟩ := s
      rcases hexit with ⟨_ | _, rfl⟩ | rfl
      · rfl
      · cases stack <;> rfl
      · rcases stack with _ | ⟨_ | _ | _ | _ | ⟨_ | _⟩, rest⟩
        case cons.ref.none =>
          show Action.throw (w'.nullAccess (memory.encode decoders)).1 (w'.nullAccess (memory.encode decoders)).2 = _
          rw [h.nullAccess]
          rfl
        all_goals rfl

/-- An instruction that accesses no encoded field does the same in both memories. -/
theorem exec_encode (h : World.Recodes decoders w w') {instr : Instr}
    (hplain : ∀ op ref, instr = .field op ref → Cancel.factor? decoders ref = none) (s : Store σ) :
    exec w' instr (s.encode decoders) = (exec w instr s).encode decoders := by
  unfold exec
  cases Effect.ofInstr instr with
  | error fault => rfl
  | ok effect => exact execWith_encode h hplain effect s

variable {op : Opcode} {ref : MemberRef} {n : Number}

theorem kind_toWidth (wide : Bool) (n : Number) :
    (Cancel.toWidth wide n).kind = if wide then .long else .int := by
  cases wide <;> rfl

/-- The factor of a field has the width of the field. -/
theorem factor?_kind (h : Cancel.factor? decoders ref = some n) :
    ref.kind? = some n.kind ∧ n.kind = if ref.descriptor == "J" then .long else .int := by
  have hint : Descriptor.fieldType "I" = .ok ⟨.int, 0⟩ := by decide +kernel
  have hlong : Descriptor.fieldType "J" = .ok ⟨.long, 0⟩ := by decide +kernel
  have hne : ("I" == "J") = false := by decide
  unfold Cancel.factor? at h
  split at h
  · next hdesc =>
      obtain ⟨decoder, -, rfl⟩ := Option.map_eq_some_iff.1 h
      rw [Bool.or_eq_true, beq_iff_eq, beq_iff_eq] at hdesc
      rw [kind_toWidth, MemberRef.kind?]
      rcases hdesc with hdesc | hdesc
      · rw [hdesc, hint, hne]
        exact ⟨rfl, rfl⟩
      · rw [hdesc, hlong]
        exact ⟨rfl, rfl⟩
  · cases h

theorem encoded_of_factor (h : Cancel.factor? decoders ref = some n) (v : Value) :
    encoded decoders ref v = n.timesValue v := by
  rw [encoded, h]

/-- An instruction throws the same in both memories, or leaves a product in the second one where it leaves a
value in the first one. -/
def LeavesProduct (decoders : Decoders) (w w' : World σ) (n : Number) (instr : Instr)
    (s s' : Store σ) : Prop :=
  s'.locals = s.locals ∧
    ((∃ exception memory, exec w instr s = .throw exception memory ∧
      exec w' instr s' = .throw exception (memory.encode decoders)) ∨
    ∃ v rest memory, v.kind = n.kind ∧ exec w instr s = .next ⟨s.locals, v :: rest, memory⟩ ∧
      exec w' instr s' = .next ⟨s.locals, n.timesValue v :: rest, memory.encode decoders⟩)

/-- A read of an encoded field leaves the product. -/
theorem exec_read (h : World.Recodes decoders w w') (hop : op.isRead)
    (hfactor : Cancel.factor? decoders ref = some n) (s : Store σ) :
    exec w (.field op ref) s = .stuck ∨
      LeavesProduct decoders w w' n (.field op ref) s (s.encode decoders) := by
  obtain ⟨locals, stack, memory⟩ := s
  have hkind := (factor?_kind hfactor).1
  have hfields : ∀ object, (memory.encode decoders).fields ⟨object, ref⟩ =
      n.timesValue (memory.fields ⟨object, ref⟩) := fun object => encoded_of_factor hfactor _
  simp only [Opcode.isRead, Bool.or_eq_true, beq_iff_eq] at hop
  rw [LeavesProduct, Store.encode]
  rcases hop with rfl | rfl
  · rw [exec_getStatic hkind, exec_getStatic hkind, hfields, Number.kind_timesValue]
    by_cases hv : (memory.fields ⟨none, ref⟩).kind = n.kind
    · rw [if_pos hv, if_pos hv]
      exact .inr ⟨rfl, .inr ⟨_, _, _, hv, rfl, rfl⟩⟩
    · exact .inl (if_neg hv)
  · rcases exec_getField_cases hkind ⟨locals, stack, memory⟩ with hstuck | ⟨object, rest, hstack⟩
    · exact .inl hstuck
    · simp only at hstack
      subst hstack
      cases object with
      | none =>
          rw [exec_getField_null hkind, exec_getField_null hkind, h.nullAccess]
          exact .inr ⟨rfl, .inl ⟨_, _, rfl, rfl⟩⟩
      | some address =>
          rw [exec_getField hkind, exec_getField hkind, hfields, Number.kind_timesValue]
          by_cases hv : (memory.fields ⟨some address, ref⟩).kind = n.kind
          · rw [if_pos hv, if_pos hv]
            exact .inr ⟨rfl, .inr ⟨_, _, _, hv, rfl, rfl⟩⟩
          · exact .inl (if_neg hv)

/-- A store to an encoded field: stuck, or it takes a value of the right kind and perhaps an object from the
stack, and does the same in the second memory when it takes the product there, whatever is left on the
stack. -/
theorem exec_store (h : World.Recodes decoders w w')
    (hop : op = Opcode.putField ∨ op = Opcode.putStatic)
    (hfactor : Cancel.factor? decoders ref = some n) (s : Store σ) :
    exec w (.field op ref) s = .stuck ∨
    ∃ v objects rest, s.stack = v :: (objects ++ rest) ∧ v.kind = n.kind ∧
      objects.length = (if op == Opcode.putStatic then 0 else 1) ∧
      ((∃ exception memory, exec w (.field op ref) s = .throw exception memory ∧
        ∀ left, exec w' (.field op ref)
          ⟨s.locals, n.timesValue v :: (objects ++ left), s.memory.encode decoders⟩ =
            .throw exception (memory.encode decoders)) ∨
      ∃ memory, exec w (.field op ref) s = .next ⟨s.locals, rest, memory⟩ ∧
        ∀ left, exec w' (.field op ref)
          ⟨s.locals, n.timesValue v :: (objects ++ left), s.memory.encode decoders⟩ =
            .next ⟨s.locals, left, memory.encode decoders⟩) := by
  obtain ⟨locals, stack, memory⟩ := s
  have hkind := (factor?_kind hfactor).1
  rcases hop with rfl | rfl
  · rcases exec_putField_cases hkind ⟨locals, stack, memory⟩ with
      hstuck | ⟨v, object, rest, hstack, hv⟩
    · exact .inl hstuck
    · simp only at hstack
      subst hstack
      rw [← hv] at hkind
      have hkind' : ref.kind? = some (n.timesValue v).kind := by
        rw [Number.kind_timesValue, hkind]
      refine .inr ⟨v, [.ref object], rest, rfl, hv, rfl, ?_⟩
      cases object with
      | none =>
          refine .inl ⟨_, _, exec_putField_null hkind, fun left => ?_⟩
          refine (exec_putField_null hkind').trans ?_
          rw [h.nullAccess]
      | some address =>
          refine .inr ⟨_, exec_putField hkind address, fun left => ?_⟩
          refine (exec_putField hkind' address).trans ?_
          rw [Memory.encode_set, encoded_of_factor hfactor]
          rfl
  · rcases exec_putStatic_cases hkind ⟨locals, stack, memory⟩ with
      hstuck | ⟨v, rest, hstack, hv⟩
    · exact .inl hstuck
    · simp only at hstack
      subst hstack
      rw [← hv] at hkind
      have hkind' : ref.kind? = some (n.timesValue v).kind := by
        rw [Number.kind_timesValue, hkind]
      refine .inr ⟨v, [], rest, rfl, hv, rfl, .inr ⟨_, exec_putStatic hkind, fun left => ?_⟩⟩
      refine (exec_putStatic hkind').trans ?_
      rw [Memory.encode_set, encoded_of_factor hfactor]
      rfl

/-- The effect of the duplication before a chained store. -/
def chainedEffect (isStatic wide : Bool) : Effect :=
  match isStatic, wide with
  | true, false => .dup
  | true, true => .dup2
  | false, false => .dupX1
  | false, true => .dup2X1

theorem exec_chainedDup (isStatic wide : Bool) (s : Store σ) :
    exec w (.simple (Cancel.chainedDup isStatic wide)) s =
      match Frame.shuffle Value.size id (chainedEffect isStatic wide) s.stack with
      | some stack => .next { s with stack := stack }
      | none => .stuck := by
  cases isStatic <;> cases wide <;> rfl

/-- A duplication under the objects of a store leaves a copy of the value there. -/
theorem shuffle_chained (isStatic wide : Bool) {v : Value} {objects : List Value} (rest : List Value)
    (hsize : v.size = if wide then 2 else 1)
    (hobjects : objects.length = if isStatic then 0 else 1) :
    Frame.shuffle Value.size id (chainedEffect isStatic wide) (v :: (objects ++ rest)) =
      some (v :: (objects ++ v :: rest)) := by
  cases isStatic with
  | true =>
      obtain rfl := List.length_eq_zero_iff.1 hobjects
      cases wide <;> simp [chainedEffect, Frame.shuffle, hsize]
  | false =>
      obtain ⟨object, rfl⟩ := List.length_eq_one_iff.1 hobjects
      cases wide <;> simp [chainedEffect, Frame.shuffle, hsize]

/-- A duplication keeps the top of the stack where it is. -/
theorem shuffle_chained_eq_some {isStatic wide : Bool} {stack moved : List Value}
    (h : Frame.shuffle Value.size id (chainedEffect isStatic wide) stack = some moved) :
    ∃ v objects rest left, stack = v :: (objects ++ rest) ∧
      objects.length = (if isStatic then 0 else 1) ∧ moved = v :: left := by
  cases isStatic with
  | true =>
      rcases stack with _ | ⟨v, rest⟩
      · cases wide <;> cases h
      · refine ⟨v, [], rest, ?_⟩
        cases wide with
        | false => exact ⟨_, rfl, rfl, (Option.some.inj h).symm⟩
        | true =>
            simp only [chainedEffect, Frame.shuffle] at h
            split at h
            · cases rest with
              | nil => cases h
              | cons b rest => exact ⟨_, rfl, rfl, (Option.some.inj h).symm⟩
            · exact ⟨_, rfl, rfl, (Option.some.inj h).symm⟩
  | false =>
      rcases stack with _ | ⟨v, _ | ⟨object, rest⟩⟩
      · cases wide <;> cases h
      · cases wide <;> cases h
      · refine ⟨v, [object], rest, ?_⟩
        cases wide with
        | false => exact ⟨_, rfl, rfl, (Option.some.inj h).symm⟩
        | true =>
            simp only [chainedEffect, Frame.shuffle] at h
            split at h
            · cases rest with
              | nil => cases h
              | cons b rest => exact ⟨_, rfl, rfl, (Option.some.inj h).symm⟩
            · exact ⟨_, rfl, rfl, (Option.some.inj h).symm⟩

/-- Only an instruction without operands duplicates. -/
theorem exec_opcode_chainedDup {isStatic wide : Bool} {instr : Instr}
    (hinstr : instr.opcode? = some (Cancel.chainedDup isStatic wide)) (s : Store σ) :
    exec w instr s = .stuck ∨ instr = .simple (Cancel.chainedDup isStatic wide) := by
  cases instr with
  | simple op => exact .inr (congrArg Instr.simple (Option.some.inj hinstr))
  | label _ | line _ => cases hinstr
  | ldc | iinc | tableSwitch | lookupSwitch | multiNewArray =>
      have hop := Option.some.inj hinstr
      cases isStatic <;> cases wide <;> cases hop
  | int op _ | var op _ | type op _ | jump op _ =>
      obtain rfl := Option.some.inj hinstr
      left
      cases isStatic <;> cases wide <;> rfl
  | field op ref =>
      obtain rfl := Option.some.inj hinstr
      left
      cases hkind : ref.kind? with
      | none =>
          rw [exec, Effect.ofInstr]
          unfold MemberRef.kind? at hkind
          split at hkind
          · next type htype => simp only [htype, hkind]
          · next fault htype => simp only [htype]
      | some kind =>
          rw [exec, ofInstr_field hkind]
          cases isStatic <;> cases wide <;> rfl
  | method op ref onInterface =>
      obtain rfl := Option.some.inj hinstr
      left
      have hop : Opcode.between (Cancel.chainedDup isStatic wide) Opcode.invokeVirtual
          Opcode.invokeInterface = false := by
        cases isStatic <;> cases wide <;> decide
      rw [exec, Effect.ofInstr]
      cases Descriptor.parseMethod ref.descriptor with
      | error fault => rfl
      | ok type =>
          show execWith w (.method _ ref onInterface) s (.nary _ _) = .stuck
          rw [execWith_operands rfl]
          simp only [operate, hop, Bool.false_eq_true, if_false, finish, ite_self]

end Machine

end Unscramble
