/-
Effects by their shape.  An effect replaces operands by a result, moves values about, works on one local slot, or ends the
method.  For each shape one lemma says what executing an instruction does to a frame of any domain, so that statements
about all effects need to treat the shapes only.
-/
import Unscramble.Frame.Basic
import Unscramble.Proofs.Results

namespace Unscramble

namespace Effect

/-- The number of operands, for an instruction that replaces its operands by its result. -/
def operands? : Effect → Option Nat
  | nop | push _ => some 0
  | unary _ => some 1
  | binary _ => some 2
  | ternary => some 3
  | nary count _ => some count
  | _ => none

/-- The kind of the result of such an instruction. -/
def result? : Effect → Option Kind
  | push kind => some kind
  | unary result | binary result | nary _ result => result
  | _ => none

/-- The effects that only move values. -/
def isMoving : Effect → Bool
  | pop | pop2 | dup | dupX1 | dupX2 | dup2 | dup2X1 | dup2X2 | swap => true
  | _ => false

/-- The effects that end a method, normally or not. -/
def IsExit (effect : Effect) : Prop :=
  (∃ value, effect = leave value) ∨ effect = throw

/-- An effect replaces operands by a result, moves values, works on a local slot, or ends the method. -/
theorem byShape {motive : Effect → Prop}
    (operands : ∀ effect count, effect.operands? = some count → motive effect)
    (moving : ∀ effect, effect.isMoving → motive effect) (load : ∀ slot, motive (load slot))
    (store : ∀ slot, motive (store slot)) (iinc : ∀ slot, motive (iinc slot))
    (exit : ∀ effect, effect.IsExit → motive effect) (effect : Effect) : motive effect := by
  cases effect with
  | nop | push | unary | binary | ternary | nary => exact operands _ _ rfl
  | pop | pop2 | dup | dupX1 | dupX2 | dup2 | dup2X1 | dup2X2 | swap => exact moving _ rfl
  | load slot => exact load slot
  | store slot => exact store slot
  | iinc slot => exact iinc slot
  | leave value => exact exit _ (.inl ⟨value, rfl⟩)
  | throw => exact exit _ (.inr rfl)

end Effect

namespace Frame

variable {V : Type} {d : Domain V} {index count : Nat} {instr : Instr} {effect : Effect} {slot : UInt16}
  {f g : Frame V}

/-- The value that an instruction makes of the operands on a stack, if it leaves one in their place. -/
def made (d : Domain V) (index : Nat) (instr : Instr) : Effect → List V → Option V
  | .push kind, _ => some (d.push index instr kind)
  | .unary result, _ | .nary _ result, _ => result.map (d.result index)
  | .binary result, right :: left :: _ => result.map (d.binary index instr left right)
  | _, _ => none

/-- Whatever is made is a function of the kind that the instruction announces. -/
theorem exists_made_eq_map (d : Domain V) (index : Nat) (instr : Instr) {stack : List V}
    (hcount : effect.operands? = some count) (hlong : count ≤ stack.length) :
    ∃ make : Kind → V, made d index instr effect stack = effect.result?.map make ∧
      ∀ kind, make kind = d.push index instr kind ∨ make kind = d.result index kind ∨
        ∃ left right, make kind = d.binary index instr left right kind := by
  cases effect with
  | push kind => exact ⟨d.push index instr, rfl, fun _ => .inl rfl⟩
  | nop | ternary | unary result | nary arity result => exact ⟨d.result index, rfl, fun _ => .inr (.inl rfl)⟩
  | binary result =>
      cases hcount
      rcases stack with _ | ⟨right, _ | ⟨left, rest⟩⟩
      · cases hlong
      · exact absurd hlong (by simp)
      · exact ⟨d.binary index instr left right, rfl, fun _ => .inr (.inr ⟨left, right, rfl⟩)⟩
  | _ => cases hcount

/-- What an instruction that replaces its operands by its result does to a frame. -/
theorem execute_operands (hcount : effect.operands? = some count) (f : Frame V) :
    f.execute d index instr effect =
      if f.stack.length < count then .error .underflow
      else .ok ⟨f.locals, (made d index instr effect f.stack).toList ++ f.stack.drop count⟩ := by
  obtain ⟨locals, stack⟩ := f
  cases effect with
  | nop | push kind =>
      cases hcount
      rfl
  | unary result =>
      cases hcount
      cases stack <;> rfl
  | binary result =>
      cases hcount
      rcases stack with _ | ⟨right, _ | ⟨left, rest⟩⟩ <;> simp [execute.eq_def, made]
  | ternary =>
      cases hcount
      rcases stack with _ | ⟨third, _ | ⟨second, _ | ⟨first, rest⟩⟩⟩ <;> simp [execute.eq_def, made]
  | nary arity result =>
      cases hcount
      rfl
  | _ => cases hcount

theorem execute_operands_eq_ok (hcount : effect.operands? = some count)
    (h : f.execute d index instr effect = .ok g) :
    count ≤ f.stack.length ∧ g = ⟨f.locals, (made d index instr effect f.stack).toList ++ f.stack.drop count⟩ := by
  rw [execute_operands hcount] at h
  split at h
  · cases h
  · next hshort => exact ⟨Nat.le_of_not_lt hshort, (Except.ok.inj h).symm⟩

/-- What an instruction that only moves values does to a frame. -/
theorem execute_moving (hmoving : effect.isMoving) (f : Frame V) :
    f.execute d index instr effect =
      match shuffle d.size (d.copy index instr) effect f.stack with
      | some stack => .ok { f with stack := stack }
      | none => .error .underflow := by
  cases effect with
  | pop | pop2 | dup | dupX1 | dupX2 | dup2 | dup2X1 | dup2X2 | swap => rfl
  | _ => cases hmoving

theorem execute_moving_eq_ok (hmoving : effect.isMoving)
    (h : f.execute d index instr effect = .ok g) :
    ∃ stack, shuffle d.size (d.copy index instr) effect f.stack = some stack ∧ g = ⟨f.locals, stack⟩ := by
  rw [execute_moving hmoving] at h
  split at h
  · next stack hstack => exact ⟨stack, hstack, (Except.ok.inj h).symm⟩
  · cases h

/-- An instruction that ends the method takes a fixed number of values off the stack. -/
theorem exists_execute_exit (hexit : effect.IsExit) (index : Nat) (instr : Instr) :
    ∃ count, ∀ {W : Type} (d : Domain W) (f : Frame W), f.execute d index instr effect =
      if f.stack.length < count then .error .underflow else .ok ⟨f.locals, f.stack.drop count⟩ := by
  rcases hexit with ⟨_ | _, rfl⟩ | rfl
  · exact ⟨0, fun d f => rfl⟩
  · refine ⟨1, fun d f => ?_⟩
    obtain ⟨locals, _ | ⟨a, rest⟩⟩ := f <;> rfl
  · refine ⟨1, fun d f => ?_⟩
    obtain ⟨locals, _ | ⟨a, rest⟩⟩ := f <;> rfl

theorem execute_load_eq_ok : f.execute d index instr (.load slot) = .ok g ↔
    ∃ value, f.locals[slot.toNat]? = some value ∧ ⟨f.locals, d.copy index instr value :: f.stack⟩ = g := by
  unfold execute
  dsimp only
  split <;> simp_all

theorem execute_store_eq_ok : f.execute d index instr (.store slot) = .ok g ↔
    ∃ value rest stored, f.stack = value :: rest ∧
      setLocal d slot (d.copy index instr value) f.locals = .ok stored ∧ ⟨stored, rest⟩ = g := by
  unfold execute
  dsimp only
  split <;> simp_all [map_eq_ok]

theorem execute_iinc_eq_ok : f.execute d index instr (.iinc slot) = .ok g ↔
    (∃ value, f.locals[slot.toNat]? = some value) ∧
      ∃ stored, setLocal d slot (d.result index .int) f.locals = .ok stored ∧ ⟨stored, f.stack⟩ = g := by
  unfold execute
  dsimp only
  split <;> simp_all [map_eq_ok]

end Frame

end Unscramble
