/-
Where execution goes on: an instruction jumps only to its targets, and wherever the machine goes after an
instruction that ends normally is one of the successors that the control flow of the method knows.
-/
import Unscramble.Proofs.Flow
import Unscramble.Proofs.Machine

namespace Unscramble

namespace Machine

variable {σ : Type} {w : World σ} {instr : Instr} {effect : Effect} {s s' : Store σ} {target : Label}
  {operands : List Value} {memory : Memory σ} {flow : Flow} {index : Nat} {next : List Nat}

theorem act_ne_jump (h : act w instr operands memory = some (.jump target)) : False := by
  obtain ⟨reply, -, hreply⟩ := Option.map_eq_some_iff.1 h
  cases reply <;> cases hreply

theorem operate_eq_jump (h : operate w instr operands memory = some (.jump target)) :
    target ∈ instr.targets := by
  unfold operate at h
  split at h
  · cases h
  · cases h
  · split at h
    · cases h
    · split at h
      · obtain ⟨_, -, h⟩ := Option.map_eq_some_iff.1 h
        cases h
      · exact absurd h act_ne_jump
  · split at h
    · cases h
    · split at h
      · exact absurd h act_ne_jump
      · cases h
  · split at h
    · cases h
    · exact absurd h act_ne_jump
  · unfold access at h
    split at h <;> (repeat' split at h) <;> simp [nullAccess] at h
  · obtain ⟨taken, -, h⟩ := Option.map_eq_some_iff.1 h
    split at h
    · cases h
      simp [Instr.targets]
    · cases h
  · next low high fallback targets =>
      split at h
      · obtain rfl := Outcome.jump.inj (Option.some.inj h)
        simp only [Instr.targets, List.mem_append, List.mem_singleton]
        split
        · cases hcase : targets[(_ : Nat)]? with
          | none => exact .inr rfl
          | some label => exact .inl (List.mem_of_getElem? hcase)
        · exact .inr rfl
      · cases h
  · next fallback keys targets =>
      split at h
      · next v =>
          obtain rfl := Outcome.jump.inj (Option.some.inj h)
          simp only [Instr.targets, List.mem_append, List.mem_singleton]
          cases hcase : (keys.zip targets).lookup v with
          | none => exact .inr rfl
          | some label =>
              obtain ⟨before, after, heq, -⟩ := List.lookup_eq_some_iff.1 hcase
              have hmem : (v, label) ∈ keys.zip targets := by simp [heq]
              exact .inl (List.of_mem_zip hmem).2
      · cases h
  · split at h
    · exact absurd h act_ne_jump
    · cases h
  · exact absurd h act_ne_jump

/-- An instruction with targets pushes nothing. -/
theorem result?_of_targets (heffect : Effect.ofInstr instr = .ok effect) (h : target ∈ instr.targets) :
    effect.result? = none := by
  cases instr with
  | jump op label =>
      simp only [Effect.ofInstr] at heffect
      repeat' split at heffect
      all_goals cases heffect <;> rfl
  | tableSwitch | lookupSwitch =>
      cases heffect
      rfl
  | _ => cases h

theorem exec_of_effect (heffect : Effect.ofInstr instr = .ok effect) (s : Store σ) :
    exec w instr s = execWith w instr s effect := by
  rw [exec, heffect]

theorem finish_eq_jump {rest : List Value} {kind : Option Kind} {outcome : Option (Outcome σ)}
    (h : finish s rest kind outcome = .jump target s') : outcome = some (.jump target) := by
  unfold finish at h
  split at h
  · split at h <;> cases h
  · cases h
  · cases h
    rfl
  · cases h

/-- An instruction jumps only to its targets. -/
theorem execWith_eq_jump (h : execWith w instr s effect = .jump target s') : target ∈ instr.targets := by
  cases effect using Effect.byShape with
  | operands effect count hcount =>
      rw [execWith_operands hcount] at h
      split at h
      · cases h
      · exact operate_eq_jump (finish_eq_jump h)
  | moving effect hmoving =>
      rw [execWith_moving hmoving] at h
      split at h <;> cases h
  | load slot =>
      rw [execWith_load] at h
      split at h <;> cases h
  | store slot =>
      obtain ⟨locals, _ | ⟨v, rest⟩, memory⟩ := s
      · cases h
      · rw [execWith_store] at h
        split at h <;> cases h
  | iinc slot =>
      obtain ⟨written, hwritten⟩ := exists_execWith_iinc instr s.locals slot
      rw [hwritten w s rfl] at h
      split at h <;> cases h
  | exit effect hexit =>
      obtain ⟨locals, stack, memory⟩ := s
      rcases hexit with ⟨_ | _, rfl⟩ | rfl
      · cases h
      · cases stack <;> cases h
      · rcases stack with _ | ⟨_ | _ | _ | _ | ⟨_ | _⟩, rest⟩ <;> cases h

/-- A switch always jumps. -/
theorem switch_ne_next (hswitch : ∀ v, operate w instr [v] s.memory = none ∨
      ∃ target, operate w instr [v] s.memory = some (.jump target)) :
    execWith w instr s (.unary none) ≠ .next s' := by
  obtain ⟨locals, stack, memory⟩ := s
  intro h
  rw [execWith_operands rfl] at h
  rcases stack with _ | ⟨v, rest⟩
  · cases h
  · rcases hswitch v with hnone | ⟨target, htarget⟩
    · simp [hnone, finish] at h
    · simp [htarget, finish] at h

/-- An instruction that ends the method, normally or not, does not go on. -/
theorem exit_ne_next (hexit : (∃ value, effect = .leave value) ∨ effect = .throw) :
    execWith w instr s effect ≠ .next s' := by
  obtain ⟨locals, stack, memory⟩ := s
  intro h
  rcases hexit with ⟨_ | _, rfl⟩ | rfl
  · cases h
  · cases stack <;> cases h
  · rcases stack with _ | ⟨_ | _ | _ | _ | ⟨_ | _⟩, rest⟩ <;> cases h

/-- Where execution goes on to the next instruction, that is a successor. -/
theorem mem_successors_of_next (heffect : Effect.ofInstr instr = .ok effect)
    (hnext : flow.successors index instr effect = .ok next) (h : execWith w instr s effect = .next s') :
    index + 1 ∈ next := by
  unfold Flow.successors at hnext
  split at hnext
  · next op label =>
      obtain ⟨place, -, hnext⟩ := bind_eq_ok.1 hnext
      obtain rfl := Except.ok.inj hnext
      split
      · next hop =>
          obtain rfl := beq_iff_eq.1 hop
          cases heffect
          cases h
      · simp
  · cases heffect
    exact absurd h (switch_ne_next fun v => by cases v <;> simp [operate])
  · cases heffect
    exact absurd h (switch_ne_next fun v => by cases v <;> simp [operate])
  · split at hnext
    · exact absurd h (exit_ne_next (.inl ⟨_, rfl⟩))
    · exact absurd h (exit_ne_next (.inr rfl))
    · obtain rfl := Except.ok.inj hnext
      simp

/-- The place to which an instruction jumps is a successor. -/
theorem mem_successors_of_jump {place : Nat} (hplace : place? flow.places target = some place)
    (htarget : target ∈ instr.targets) (hnext : flow.successors index instr effect = .ok next) :
    place ∈ next := by
  have hfound : flow.target target = .ok place := by rw [Flow.target, hplace]
  cases instr with
  | jump op label =>
      obtain ⟨other, hother, hnext⟩ := bind_eq_ok.1 hnext
      obtain rfl := List.mem_singleton.1 htarget
      rw [hfound] at hother
      obtain rfl := Except.ok.inj hother
      obtain rfl := Except.ok.inj hnext
      split <;> simp
  | tableSwitch | lookupSwitch => exact mem_of_mapM_eq_ok hnext htarget hfound
  | _ => cases htarget

/-- The handler of an exception is that of a range that covers the instruction. -/
theorem exists_range_of_handler? {m : MethodDecl} (hflow : flow.Describes m) {exception : Value} {place : Nat}
    (h : handler? w m index exception memory = some place) :
    ∃ range ∈ flow.handlers, range.covers index ∧ range.handler = place := by
  obtain ⟨block, hblock, hbound⟩ := List.exists_of_findSome?_eq_some h
  obtain ⟨start, hstart, hbound⟩ := Option.bind_eq_some_iff.1 hbound
  obtain ⟨stop, hstop, hfound⟩ := Option.bind_eq_some_iff.1 hbound
  split at hfound
  · next hcovers =>
      obtain ⟨range, hrange, hstart', hstop', hhandler⟩ := hflow.exists_range hblock
      obtain rfl := Option.some.inj (hstart.symm.trans hstart')
      obtain rfl := Option.some.inj (hstop.symm.trans hstop')
      refine ⟨range, hrange, ?_, Option.some.inj (hhandler.symm.trans hfound)⟩
      simp [HandlerRange.covers, hcovers.1, hcovers.2.1]
  · cases hfound

end Machine

end Unscramble
