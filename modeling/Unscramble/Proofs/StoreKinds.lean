/-
The kinds of a frame and the values of a store.  A store conforms to a frame of kinds when its slots and its stack have
the kinds that the frame knows.  The arguments of a call conform to the frame on entry, and where nothing unknown is on
the stack, every instruction leaves a store that conforms to the frame after it.
-/
import Unscramble.Proofs.Execution
import Unscramble.Proofs.RelatedFrames

namespace Unscramble

/-- Whether a value may be where a frame has a kind. -/
def Kind.Allows (kind : Kind) (v : Value) : Prop :=
  kind = .uninitialized ∨ v.kind = kind

namespace Machine

variable {σ : Type} {w : World σ} {instr : Instr} {effect : Effect} {s s' : Store σ} {index count : Nat} {slot : UInt16}

/-- The store with which execution goes on inside the method. -/
def Action.store? : Action σ → Option (Store σ)
  | next s | jump _ s => some s
  | _ => none

/-- What an instruction that replaces its operands by its result leaves. -/
theorem store?_of_operands (hcount : effect.operands? = some count) (heffect : Effect.ofInstr instr = .ok effect)
    (h : (execWith w instr s effect).store? = some s') :
    s'.locals = s.locals ∧ ∃ result : Option Value, s'.stack = result.toList ++ s.stack.drop count ∧
      result.map Value.kind = effect.result? ∧
      ∀ v, result = some v →
        ∃ memory, operate w instr (s.stack.take count) s.memory = some (.done (some v) memory) := by
  rw [execWith_operands hcount] at h
  split at h
  · cases h
  · generalize houtcome : operate w instr (s.stack.take count) s.memory = outcome at h ⊢
    unfold finish at h
    split at h
    · next result memory =>
        split at h
        · next hkind =>
            cases h
            exact ⟨rfl, result, rfl, hkind, fun v hv => ⟨memory, by rw [hv]⟩⟩
        · cases h
    · cases h
    · next target =>
        cases h
        exact ⟨rfl, none, rfl, (result?_of_targets heffect (operate_eq_jump houtcome)).symm, nofun⟩
    · cases h

theorem store?_of_load (h : (execWith w instr s (.load slot)).store? = some s') :
    s' = { s with stack := s.locals slot :: s.stack } := by
  rw [execWith_load] at h
  split at h
  · exact (Option.some.inj h).symm
  · cases h

theorem store?_of_store (h : (execWith w instr s (.store slot)).store? = some s') :
    ∃ v rest, s.stack = v :: rest ∧ s' = { s with stack := rest }.setLocal slot v := by
  obtain ⟨locals, stack, memory⟩ := s
  rcases stack with _ | ⟨v, rest⟩
  · cases h
  · rw [execWith_store] at h
    split at h
    · exact ⟨v, rest, rfl, (Option.some.inj h).symm⟩
    · cases h

theorem store?_of_iinc (h : (execWith w instr s (.iinc slot)).store? = some s') :
    ∃ n, s' = s.setLocal slot (.int n) := by
  obtain ⟨written, hwritten⟩ := exists_execWith_iinc instr s.locals slot
  rw [hwritten w s rfl] at h
  split at h
  · exact ⟨_, (Option.some.inj h).symm⟩
  · cases h

theorem store?_of_moving (hmoving : effect.isMoving) (h : (execWith w instr s effect).store? = some s') :
    ∃ stack, Frame.shuffle Value.size id effect s.stack = some stack ∧ s' = { s with stack := stack } := by
  rw [execWith_moving hmoving] at h
  split at h
  · next stack hstack => exact ⟨stack, hstack, (Option.some.inj h).symm⟩
  · cases h

/-- An instruction that ends the method leaves no store. -/
theorem store?_of_exit (hexit : effect.IsExit) : (execWith w instr s effect).store? = none := by
  obtain ⟨locals, stack, memory⟩ := s
  rcases hexit with ⟨_ | _, rfl⟩ | rfl
  · rfl
  · cases stack <;> rfl
  · rcases stack with _ | ⟨_ | _ | _ | _ | ⟨_ | _⟩, rest⟩ <;> rfl

/-- The values of a store have the kinds of a frame. -/
structure Store.Conforms (s : Store σ) (f : Frame Kind) : Prop where
  locals : ∀ (slot : UInt16) (kind : Kind), f.locals[slot.toNat]? = some kind → kind.Allows (s.locals slot)
  stack : List.Forall₂ Kind.Allows f.stack s.stack

section Kinds

variable {f after : Frame Kind}

/-- Kinds that are known are those of the values. -/
theorem kinds_of_known {kinds : List Kind} {values : List Value} (h : List.Forall₂ Kind.Allows kinds values)
    (hknown : Kind.uninitialized ∉ kinds) : List.Forall₂ (fun kind v => Value.kind v = kind) kinds values := by
  induction h with
  | nil => exact .nil
  | cons hfirst _ ih =>
      rw [List.mem_cons, not_or] at hknown
      exact .cons (hfirst.resolve_left (Ne.symm hknown.1)) (ih hknown.2)

theorem Store.Conforms.of_above {upper lower : Frame Kind} (h : s.Conforms lower)
    (habove : upper.Above Domain.kinds lower) : s.Conforms upper := by
  have hcomp : ∀ kind kind' v, Domain.kinds.Absorbs kind kind' → Kind.Allows kind' v → Kind.Allows kind v := by
    intro kind kind' v habsorbs hv
    rcases (Domain.kinds_absorbs_iff kind kind').1 habsorbs with rfl | rfl
    · exact hv
    · exact .inl rfl
  refine ⟨fun slot kind hkind => ?_, forall₂_comp hcomp habove.2 h.stack⟩
  obtain ⟨kind', hkind', habsorbs⟩ := forall₂_getElem? habove.1 hkind
  exact hcomp kind kind' _ habsorbs (h.locals slot kind' hkind')

/-- A slot is set to a value of a kind. -/
theorem Store.Conforms.setLocal {kind : Kind} {kinds : List Kind} {v : Value} (h : s.Conforms f)
    (hv : kind.Allows v) (hset : Frame.setLocal Domain.kinds slot kind f.locals = .ok kinds) :
    ∀ (other : UInt16) (kind' : Kind), kinds[other.toNat]? = some kind' →
      kind'.Allows ((s.setLocal slot v).locals other) := by
  intro other kind' hkind'
  show kind'.Allows (if other = slot then v else s.locals other)
  rcases Frame.getElem?_setLocal hset hkind' with rfl | ⟨hslot, rfl⟩ | ⟨hslot, hold⟩
  · exact .inl rfl
  · rw [if_pos (UInt16.toNat_inj.1 hslot)]
    exact hv
  · rw [if_neg fun heq => hslot (congrArg UInt16.toNat heq)]
    exact h.locals other kind' hold

/-- An instruction leaves values of the kinds that it leaves in the frame. -/
theorem Store.Conforms.execute (h : s.Conforms f) (hknown : Kind.uninitialized ∉ f.stack)
    (heffect : Effect.ofInstr instr = .ok effect) (hexecute : f.execute Domain.kinds index instr effect = .ok after)
    (hstore : (execWith w instr s effect).store? = some s') : s'.Conforms after := by
  cases effect using Effect.byShape with
  | operands effect count hcount =>
      obtain ⟨-, rfl⟩ := Frame.execute_kinds hcount hexecute
      obtain ⟨hlocals, result, hstack, hresult, -⟩ := store?_of_operands hcount heffect hstore
      refine ⟨hlocals ▸ h.locals, ?_⟩
      rw [hstack, ← hresult]
      refine List.rel_append ?_ (List.forall₂_drop count h.stack)
      cases result with
      | none => exact .nil
      | some v => exact .cons (.inr rfl) .nil
  | moving effect hmoving =>
      obtain ⟨stack, hmoved, rfl⟩ := Frame.execute_moving_eq_ok hmoving hexecute
      obtain ⟨stack', hmoved', rfl⟩ := store?_of_moving hmoving hstore
      obtain ⟨moved, hshuffled, hkinds⟩ : ∃ moved, Frame.shuffle Value.size id effect s.stack = some moved ∧
          List.Forall₂ (fun kind v => Value.kind v = kind) stack moved :=
        Frame.shuffle_forall₂ (fun kind v hv => congrArg Kind.size hv.symm) (fun kind v hv => hv)
          (kinds_of_known h.stack hknown) hmoved
      obtain rfl := Option.some.inj (hmoved'.symm.trans hshuffled)
      exact ⟨h.locals, hkinds.imp fun _ _ hv => .inr hv⟩
  | load slot =>
      obtain rfl := store?_of_load hstore
      obtain ⟨kind, hkind, rfl⟩ := Frame.execute_load_eq_ok.1 hexecute
      exact ⟨h.locals, .cons (h.locals slot kind hkind) h.stack⟩
  | store slot =>
      obtain ⟨v, rest, hstack, rfl⟩ := store?_of_store hstore
      obtain ⟨kind, kinds, stored, hkinds, hstored, rfl⟩ := Frame.execute_store_eq_ok.1 hexecute
      obtain ⟨hkind, hrest⟩ := List.forall₂_cons.1 (hkinds ▸ hstack ▸ h.stack)
      exact ⟨h.setLocal hkind hstored, hrest⟩
  | iinc slot =>
      obtain ⟨n, rfl⟩ := store?_of_iinc hstore
      obtain ⟨-, stored, hstored, rfl⟩ := Frame.execute_iinc_eq_ok.1 hexecute
      exact ⟨h.setLocal (.inr rfl) hstored, h.stack⟩
  | exit effect hexit =>
      rw [store?_of_exit hexit] at hstore
      cases hstore

end Kinds

end Machine

/-- The slots of a value of a kind. -/
def Kind.slots (kind : Kind) : List Kind :=
  if kind.size == 2 then [kind, .uninitialized] else [kind]

theorem Kind.length_slots (kind : Kind) : kind.slots.length = kind.size := by
  cases kind <;> rfl

theorem Kind.getElem?_slots {kind first : Kind} {index : Nat} (h : first.slots[index]? = some kind)
    (hknown : kind ≠ .uninitialized) : index = 0 ∧ kind = first := by
  cases first <;> rcases index with _ | _ | index <;> simp_all [slots, size]

/-- A slot in which something known is begins a value, behind the values before it. -/
theorem Kind.exists_of_getElem?_slots {kinds : List Kind} {index : Nat} {kind : Kind}
    (h : (kinds.flatMap slots)[index]? = some kind) (hknown : kind ≠ .uninitialized) :
    ∃ before after, kinds = before ++ kind :: after ∧ index = total (before.map size) := by
  induction kinds generalizing index with
  | nil => cases h
  | cons first rest ih =>
      rw [List.flatMap_cons] at h
      by_cases hfirst : index < first.slots.length
      · rw [List.getElem?_append_left hfirst] at h
        obtain ⟨rfl, rfl⟩ := getElem?_slots h hknown
        exact ⟨[], rest, rfl, rfl⟩
      · rw [List.getElem?_append_right (Nat.le_of_not_lt hfirst)] at h
        obtain ⟨before, after, rfl, hindex⟩ := ih h
        refine ⟨first :: before, after, rfl, ?_⟩
        rw [List.map_cons, total_cons, ← hindex, length_slots]
        rw [length_slots] at hfirst
        omega

/-- The method takes the arguments: the receiver, if there is one, and one for every parameter. -/
def MethodDecl.Accepts (m : MethodDecl) (args : List Value) : Prop :=
  ∃ params kinds, Descriptor.parameters m.descriptor = .ok params ∧ params.map Kind.ofType? = kinds.map some ∧
    args.map Value.kind = (if m.isStatic then [] else [.reference]) ++ kinds

namespace Machine

variable {σ : Type} {w : World σ} {m : MethodDecl}

/-- Every argument stands in the slot behind those before it. -/
def Passes (args : List Value) (locals : UInt16 → Value) : Prop :=
  ∀ before v after, args = before ++ v :: after → ∀ slot : UInt16, slot.toNat = total (before.map Value.size) →
    locals slot = v

/-- On entry the arguments have the kinds of the first frame. -/
theorem conforms_entry {args : List Value} {locals : UInt16 → Value} {f : Frame Kind} (hargs : m.Accepts args)
    (hlocals : Passes args locals) (h : Analysis.entryFrame Domain.kinds m = .ok f) (memory : Memory σ) :
    Store.Conforms ⟨locals, [], memory⟩ f := by
  obtain ⟨params, kinds, hparams, hkinds, hargs⟩ := hargs
  rw [Analysis.entryFrame, hparams] at h
  obtain ⟨slots, hslots, h⟩ := bind_eq_ok.1 h
  obtain ⟨kinds', hkinds', hslots⟩ := bind_eq_ok.1 hslots
  obtain rfl := Except.ok.inj h
  obtain rfl := Except.ok.inj hslots
  obtain rfl : kinds' = kinds := by
    have hall : params.map Kind.ofType? = kinds'.map some := by
      refine map_eq_of_forall₂ ((mapM_eq_ok.1 hkinds').imp fun type kind htype => ?_)
      split at htype
      · next kind' hkind => rw [hkind, Except.ok.inj htype]
      · cases htype
    exact (List.map_inj_right fun _ _ => Option.some.inj).1 (hall.symm.trans hkinds)
  refine ⟨fun slot kind hkind => ?_, .nil⟩
  by_cases hknown : kind = .uninitialized
  · exact .inl hknown
  have hslots : (if m.isStatic then [] else [Domain.kinds.fresh .reference]) ++ kinds'.flatMap Kind.slots =
      ((if m.isStatic then [] else [Kind.reference]) ++ kinds').flatMap Kind.slots := by
    rw [List.flatMap_append]
    split <;> rfl
  replace hkind : (((if m.isStatic then [] else [Domain.kinds.fresh .reference]) ++ kinds'.flatMap Kind.slots) ++
    List.replicate _ .uninitialized)[slot.toNat]? = some kind := hkind
  rw [hslots, ← hargs, List.getElem?_append] at hkind
  split at hkind
  · obtain ⟨before, after, hsplit, hindex⟩ := Kind.exists_of_getElem?_slots hkind hknown
    obtain ⟨first, rest, rfl, rfl, hrest⟩ := List.map_eq_append_iff.1 hsplit
    obtain ⟨v, last, rfl, rfl, -⟩ := List.map_eq_cons_iff.1 hrest
    refine .inr (congrArg Value.kind (hlocals first v last rfl slot ?_))
    rw [hindex, List.map_map]
    rfl
  · exact absurd (List.eq_of_mem_replicate (List.mem_of_getElem? hkind)) hknown

end Machine

end Unscramble
