/-
Frames of two domains side by side.  Where values go depends on their sizes alone, and so on their kinds: a domain whose
values are related to kinds can execute whatever can be executed on the kinds, and the frames stay related.
-/
import Unscramble.Domain.Exprs
import Unscramble.Proofs.DomainLaws

namespace Unscramble

namespace Frame

section Shuffles

variable {V W : Type} {size : V → Nat} {copy : V → V} {moving : Effect} {top top' : List V}

/-- Moving values does not depend on what they are, only on their sizes. -/
theorem shuffle_map {size' : W → Nat} {copy' : W → W} {f : V → W}
    (hsize : ∀ v ∈ top, size' (f v) = size v) (hcopy : ∀ v, copy' (f v) = f (copy v)) :
    shuffle size' copy' moving (top.map f) = (shuffle size copy moving top).map (List.map f) := by
  fun_cases shuffle size copy moving top
  case case23 =>
    rcases top with _ | ⟨a, _ | ⟨b, rest⟩⟩ <;> cases moving <;> simp_all [shuffle]
  all_goals simp_all [shuffle]

/-- What lies below the values that an instruction moves stays where it is. -/
theorem shuffle_append (h : shuffle size copy moving top = some top') (rest : List V) :
    shuffle size copy moving (top ++ rest) = some (top' ++ rest) := by
  fun_cases shuffle size copy moving top <;> simp_all [shuffle] <;> grind

/-- Stacks of related values stay so when values are moved. -/
theorem shuffle_forall₂ {size' : W → Nat} {copy' : W → W} {R : V → W → Prop} {other : List W}
    (hsize : ∀ v w, R v w → size v = size' w) (hcopy : ∀ v w, R v w → R (copy v) (copy' w))
    (hrel : List.Forall₂ R top other) (h : shuffle size copy moving top = some top') :
    ∃ other', shuffle size' copy' moving other = some other' ∧ List.Forall₂ R top' other' := by
  have hfst : (top.zip other).map Prod.fst = top := List.map_fst_zip (Nat.le_of_eq hrel.length_eq)
  have hsnd : (top.zip other).map Prod.snd = other := List.map_snd_zip (Nat.le_of_eq hrel.length_eq.symm)
  have hpairs : ∀ p ∈ top.zip other, R p.1 p.2 := fun p hp => List.forall₂_zip hrel hp
  -- Both stacks are the sides of a stack of pairs.
  have hleft : shuffle size copy moving top = (shuffle (size ∘ Prod.fst) (Prod.map copy copy') moving
      (top.zip other)).map (List.map Prod.fst) := by
    exact (congrArg _ hfst.symm).trans (shuffle_map (fun _ _ => rfl) (fun _ => rfl))
  have hright : shuffle size' copy' moving other = (shuffle (size ∘ Prod.fst) (Prod.map copy copy') moving
      (top.zip other)).map (List.map Prod.snd) := by
    exact (congrArg _ hsnd.symm).trans
      (shuffle_map (fun p hp => (hsize p.1 p.2 (hpairs p hp)).symm) (fun _ => rfl))
  rw [h] at hleft
  obtain ⟨moved, hmoved, rfl⟩ := Option.map_eq_some_iff.1 hleft.symm
  rw [hmoved] at hright
  refine ⟨moved.map Prod.snd, hright, ?_⟩
  rw [List.forall₂_map_left_iff, List.forall₂_map_right_iff, List.forall₂_same]
  exact shuffle_good hpairs (fun p hp => hcopy p.1 p.2 hp) hmoved

end Shuffles

section Locals

variable {V : Type} {d : Domain V} {index : UInt16} {value a : V} {locals stored : List V} {slot place : Nat}

theorem getElem?_set_cases (h : (locals.set place value)[slot]? = some a) :
    (slot = place ∧ a = value) ∨ (slot ≠ place ∧ locals[slot]? = some a) := by
  by_cases hplace : slot = place
  · rw [hplace, List.getElem?_set_self'] at h
    obtain ⟨_, -, rfl⟩ := Option.map_eq_some_iff.1 h
    exact .inl ⟨hplace, rfl⟩
  · exact .inr ⟨hplace, by rwa [List.getElem?_set_ne (Ne.symm hplace)] at h⟩

theorem getElem?_written (h : (written d place value locals)[slot]? = some a) :
    a = d.fresh .uninitialized ∨ (slot = place ∧ a = value) ∨ (slot ≠ place ∧ locals[slot]? = some a) := by
  unfold written at h
  split at h
  · rcases getElem?_set_cases h with ⟨-, rfl⟩ | ⟨-, h⟩
    · exact .inl rfl
    · exact .inr (getElem?_set_cases h)
  · exact .inr (getElem?_set_cases h)

/-- After a slot was set, every other one is as before or not initialized. -/
theorem getElem?_setLocal (h : setLocal d index value locals = .ok stored) (ha : stored[slot]? = some a) :
    a = d.fresh .uninitialized ∨ (slot = index.toNat ∧ a = value) ∨ (slot ≠ index.toNat ∧ locals[slot]? = some a) := by
  rw [setLocal_eq_ok h] at ha
  rcases spoiled_cases d index.toNat (written d index.toNat value locals) with heq | ⟨before, heq⟩
  · exact getElem?_written (heq ▸ ha)
  · rcases getElem?_set_cases (heq ▸ ha) with ⟨-, rfl⟩ | ⟨-, ha⟩
    · exact .inl rfl
    · exact getElem?_written ha

end Locals

end Frame

/-- The values of a domain are related to kinds: a value of a known kind has its size, and what an instruction makes is
related to the kind of what it makes. -/
structure Domain.Kinded {V : Type} (d : Domain V) (R : Kind → V → Prop) : Prop where
  unknown : ∀ a, R .uninitialized a
  size : ∀ kind a, R kind a → kind = .uninitialized ∨ d.size a = kind.size
  fresh : ∀ kind, R kind (d.fresh kind)
  push : ∀ index instr kind, R kind (d.push index instr kind)
  copy : ∀ index instr kind a, R kind a → R kind (d.copy index instr a)
  copy_size : ∀ index instr a, d.size (d.copy index instr a) = d.size a
  result : ∀ index kind, R kind (d.result index kind)
  binary : ∀ index instr left right kind, R kind (d.binary index instr left right kind)

/-- A kind is related to the kinds that it absorbs. -/
theorem Domain.kinds_kinded : Domain.kinds.Kinded Domain.kinds.Absorbs where
  unknown a := (kinds_absorbs_iff _ a).2 (.inr rfl)
  size kind a h := by
    rcases (kinds_absorbs_iff kind a).1 h with rfl | rfl
    · exact .inr rfl
    · exact .inl rfl
  fresh kind := kinds_lawful.absorbs_refl kind trivial
  push _ _ kind := kinds_lawful.absorbs_refl kind trivial
  copy _ _ _ _ h := h
  copy_size _ _ _ := rfl
  result _ kind := kinds_lawful.absorbs_refl kind trivial
  binary _ _ _ _ kind := kinds_lawful.absorbs_refl kind trivial

theorem Expr.origin_combine (origin : Origin) (instr : Instr) (left right : Expr) :
    (Expr.combine origin instr left right).origin = origin := by
  unfold Expr.combine
  repeat' split
  all_goals rfl

/-- An expression has the size of a kind, or the kind is not known. -/
def Expr.Sized (kind : Kind) (e : Expr) : Prop :=
  kind = .uninitialized ∨ e.origin.size = kind.size

theorem Domain.exprs_kinded : Domain.exprs.Kinded Expr.Sized where
  unknown _ := .inl rfl
  size _ _ h := h
  fresh _ := .inr rfl
  push index instr kind := by
    simp only [exprs]
    split <;> exact .inr rfl
  copy _ _ _ _ h := h
  copy_size _ _ _ := rfl
  result _ _ := .inr rfl
  binary index instr left right kind := .inr (congrArg Origin.size (Expr.origin_combine _ instr left right))

namespace Frame

/-- The frames have related values in the same places. -/
def Related {V W : Type} (R : V → W → Prop) (f : Frame V) (g : Frame W) : Prop :=
  List.Forall₂ R f.locals g.locals ∧ List.Forall₂ R f.stack g.stack

section Related

variable {V : Type} {d : Domain V} {R : Kind → V → Prop} {kinds stored : List Kind} {values : List V}
  {f after : Frame Kind} {g : Frame V} {index : Nat} {instr : Instr} {effect : Effect}

/-- Frames that stand side by side stay so where the kinds are those of a frame above. -/
theorem related_of_above (hd : d.Kinded R) {upper lower : Frame Kind}
    (habove : upper.Above Domain.kinds lower) (h : lower.Related R g) : upper.Related R g := by
  have hcomp : ∀ kind kind' a, Domain.kinds.Absorbs kind kind' → R kind' a → R kind a := by
    intro kind kind' a habsorbs ha
    rcases (Domain.kinds_absorbs_iff kind kind').1 habsorbs with rfl | rfl
    · exact ha
    · exact hd.unknown a
  exact ⟨forall₂_comp hcomp habove.1 h.1, forall₂_comp hcomp habove.2 h.2⟩

/-- Values of known kinds have the sizes of these. -/
theorem sizes_of_known (hd : d.Kinded R) (h : List.Forall₂ R kinds values) (hknown : Kind.uninitialized ∉ kinds) :
    List.Forall₂ (fun kind a => R kind a ∧ d.size a = kind.size) kinds values := by
  induction h with
  | nil => exact .nil
  | cons hfirst _ ih =>
      rw [List.mem_cons, not_or] at hknown
      exact .cons ⟨hfirst, (hd.size _ _ hfirst).resolve_left (Ne.symm hknown.1)⟩ (ih hknown.2)

/-- A wide value in front of a slot is lost in both lists, or its kind was not known and nothing is. -/
theorem spoiled_related (hd : d.Kinded R) (h : List.Forall₂ R kinds values) (slot : Nat) :
    List.Forall₂ R (spoiled Domain.kinds slot kinds) (spoiled d slot values) := by
  cases slot with
  | zero => exact h
  | succ before =>
      simp only [spoiled]
      cases hkind : kinds[before]? with
      | none =>
          have hnone : values[before]? = none := by
            rw [List.getElem?_eq_none_iff] at hkind ⊢
            rwa [← h.length_eq]
          rw [hnone]
          exact h
      | some kind =>
          obtain ⟨a, ha, hrelated⟩ := forall₂_getElem? h hkind
          have hlost := forall₂_set h (hd.fresh .uninitialized) before
          rw [ha]
          rcases hd.size kind a hrelated with rfl | hsize
          · have hset : kinds.set before .uninitialized = kinds := by
              obtain ⟨hbefore, hget⟩ := List.getElem?_eq_some_iff.1 hkind
              rw [← hget, List.set_getElem_self]
            show List.Forall₂ R kinds (if d.size a == 2 then _ else _)
            split
            · exact hset ▸ hlost
            · exact h
          · show List.Forall₂ R (if kind.size == 2 then _ else _) (if d.size a == 2 then _ else _)
            rw [hsize]
            split
            · exact hlost
            · exact h

theorem written_related (hd : d.Kinded R) (h : List.Forall₂ R kinds values) {kind : Kind} {a : V} (ha : R kind a)
    (hsize : d.size a = kind.size) (slot : Nat) :
    List.Forall₂ R (written Domain.kinds slot kind kinds) (written d slot a values) := by
  unfold written
  rw [hsize]
  show List.Forall₂ R (if kind.size == 2 then _ else _) (if kind.size == 2 then _ else _)
  split
  · exact forall₂_set (forall₂_set h ha slot) (hd.fresh .uninitialized) (slot + 1)
  · exact forall₂_set h ha slot

/-- A value can be set where its kind can be set. -/
theorem setLocal_related (hd : d.Kinded R) {slot : UInt16} {kind : Kind} {a : V} (h : List.Forall₂ R kinds values)
    (ha : R kind a) (hsize : d.size a = kind.size) (hset : setLocal Domain.kinds slot kind kinds = .ok stored) :
    ∃ stored', setLocal d slot a values = .ok stored' ∧ List.Forall₂ R stored stored' := by
  have hrelated := spoiled_related hd (written_related hd h ha hsize slot.toNat) slot.toNat
  refine ⟨_, ?_, setLocal_eq_ok hset ▸ hrelated⟩
  have hwide : Domain.kinds.size kind = d.size a := hsize.symm
  rw [setLocal_eq, hwide, h.length_eq] at hset
  rw [setLocal_eq]
  split at hset
  · cases hset
  · next hfits => rw [if_neg hfits]

/-- What an instruction leaves in place of its operands is related to the kind that it announces. -/
theorem made_related (hd : d.Kinded R) (index : Nat) (instr : Instr) {count : Nat}
    (hcount : effect.operands? = some count) (hlong : count ≤ values.length) :
    List.Forall₂ R effect.result?.toList (made d index instr effect values).toList := by
  obtain ⟨make, hmade, hmake⟩ := exists_made_eq_map d index instr hcount hlong
  rw [hmade]
  cases effect.result? with
  | none => exact .nil
  | some kind =>
      refine .cons ?_ .nil
      rcases hmake kind with heq | heq | ⟨left, right, heq⟩
      · exact heq ▸ hd.push index instr kind
      · exact heq ▸ hd.result index kind
      · exact heq ▸ hd.binary index instr left right kind

/-- On kinds, an instruction leaves what it announces. -/
theorem made_kinds {count : Nat} (hcount : effect.operands? = some count) (hlong : count ≤ kinds.length) :
    made Domain.kinds index instr effect kinds = effect.result? := by
  obtain ⟨make, hmade, hmake⟩ := exists_made_eq_map Domain.kinds index instr hcount hlong
  have hid : make = id := by
    funext kind
    rcases hmake kind with heq | heq | ⟨left, right, heq⟩ <;> exact heq
  rw [hmade, hid, Option.map_id_fun, id]

/-- The kinds on the stack after an instruction that replaces its operands by its result. -/
theorem execute_kinds {count : Nat} (hcount : effect.operands? = some count)
    (h : f.execute Domain.kinds index instr effect = .ok after) :
    count ≤ f.stack.length ∧ after = ⟨f.locals, effect.result?.toList ++ f.stack.drop count⟩ := by
  obtain ⟨hlong, rfl⟩ := execute_operands_eq_ok hcount h
  exact ⟨hlong, by rw [made_kinds hcount hlong]⟩

/-- What can be executed on kinds can be executed on values that have these kinds. -/
theorem execute_related (hd : d.Kinded R) (h : f.Related R g)
    (hsizes : List.Forall₂ (fun kind a => R kind a ∧ d.size a = kind.size) f.stack g.stack)
    (hexecute : f.execute Domain.kinds index instr effect = .ok after) :
    ∃ after', g.execute d index instr effect = .ok after' ∧ after.Related R after' := by
  obtain ⟨hlocals, hstack⟩ := h
  cases effect using Effect.byShape with
  | operands effect count hcount =>
      obtain ⟨hlong, rfl⟩ := execute_kinds hcount hexecute
      rw [hstack.length_eq] at hlong
      rw [execute_operands hcount, if_neg (Nat.not_lt.2 hlong)]
      exact ⟨_, rfl, hlocals, List.rel_append (made_related hd index instr hcount hlong)
        (List.forall₂_drop count hstack)⟩
  | moving effect hmoving =>
      obtain ⟨stack, hmoved, rfl⟩ := execute_moving_eq_ok hmoving hexecute
      obtain ⟨stack', hmoved', hrelated⟩ : ∃ stack', shuffle d.size (d.copy index instr) effect g.stack = some stack' ∧
          List.Forall₂ (fun kind a => R kind a ∧ d.size a = kind.size) stack stack' :=
        shuffle_forall₂ (fun kind a ha => ha.2.symm)
          (fun kind a ha => ⟨hd.copy index instr kind a ha.1, (hd.copy_size index instr a).trans ha.2⟩) hsizes hmoved
      rw [execute_moving hmoving, hmoved']
      exact ⟨_, rfl, hlocals, hrelated.imp fun _ _ ha => ha.1⟩
  | load slot =>
      obtain ⟨kind, hkind, rfl⟩ := execute_load_eq_ok.1 hexecute
      obtain ⟨a, ha, hrelated⟩ := forall₂_getElem? hlocals hkind
      exact ⟨_, execute_load_eq_ok.2 ⟨a, ha, rfl⟩, hlocals, .cons (hd.copy index instr kind a hrelated) hstack⟩
  | store slot =>
      obtain ⟨kind, kinds, stored, hkinds, hstored, rfl⟩ := execute_store_eq_ok.1 hexecute
      obtain ⟨a, values, hfirst, hrest, hvalues⟩ := List.forall₂_cons_left_iff.1 (hkinds ▸ hsizes)
      obtain ⟨stored', hstored', hrelated⟩ := setLocal_related hd hlocals (hd.copy index instr kind a hfirst.1)
        ((hd.copy_size index instr a).trans hfirst.2) hstored
      exact ⟨_, execute_store_eq_ok.2 ⟨a, values, stored', hvalues, hstored', rfl⟩, hrelated,
        hrest.imp fun _ _ ha => ha.1⟩
  | iinc slot =>
      obtain ⟨⟨kind, hkind⟩, stored, hstored, rfl⟩ := execute_iinc_eq_ok.1 hexecute
      obtain ⟨a, ha, -⟩ := forall₂_getElem? hlocals hkind
      have hint := hd.result index .int
      obtain ⟨stored', hstored', hrelated⟩ := setLocal_related hd hlocals hint
        ((hd.size _ _ hint).resolve_left Kind.noConfusion) hstored
      exact ⟨_, execute_iinc_eq_ok.2 ⟨⟨a, ha⟩, stored', hstored', rfl⟩, hrelated, hstack⟩
  | exit effect hexit =>
      obtain ⟨count, hcount⟩ := exists_execute_exit hexit index instr
      rw [hcount] at hexecute
      rw [hcount, ← hstack.length_eq]
      split at hexecute
      · cases hexecute
      · next hlong =>
          cases hexecute
          rw [if_neg hlong]
          exact ⟨_, rfl, hlocals, List.forall₂_drop count hstack⟩

end Related

end Frame

end Unscramble
