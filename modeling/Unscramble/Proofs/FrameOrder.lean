/-
The order of frames.  One frame lies above another when each of its values absorbs the corresponding value
of the other.  For a lawful domain joining two frames gives one that lies above both, and executing an
instruction keeps the values lawful and the number of local slots.
-/
import Unscramble.Analysis.Basic
import Unscramble.Proofs.EffectShapes

namespace Unscramble

variable {V : Type}

/-- Whether joining an arriving value into the present one leaves the present one as it is. -/
def Domain.Absorbs (d : Domain V) (present arriving : V) : Prop :=
  d.merge present arriving = present

/-- The laws that make joining an upper bound.  They need only hold of the values that occur in frames,
which the predicate `Good` describes. -/
structure Domain.Lawful (d : Domain V) (Good : V → Prop) : Prop where
  same_iff : ∀ a b, d.same a b = true ↔ a = b
  good_fresh : ∀ kind, Good (d.fresh kind)
  good_push : ∀ index instr kind, Good (d.push index instr kind)
  good_copy : ∀ index instr a, Good a → Good (d.copy index instr a)
  good_result : ∀ index kind, Good (d.result index kind)
  good_binary : ∀ index instr a b kind, Good a → Good b → Good (d.binary index instr a b kind)
  good_merge : ∀ a b, Good a → Good b → Good (d.merge a b)
  absorbs_refl : ∀ a, Good a → d.Absorbs a a
  absorbs_trans : ∀ a b c, Good a → Good b → Good c →
    d.Absorbs a b → d.Absorbs b c → d.Absorbs a c
  merge_absorbs_left : ∀ a b, Good a → Good b → d.Absorbs (d.merge a b) a
  merge_absorbs_right : ∀ a b, Good a → Good b → d.Absorbs (d.merge a b) b

/-- The values that an instruction at an index makes of good ones are good. -/
structure Domain.Makes (d : Domain V) (Good : V → Prop) (index : Nat) (instr : Instr) : Prop where
  fresh : ∀ kind, Good (d.fresh kind)
  push : ∀ kind, Good (d.push index instr kind)
  copy : ∀ a, Good a → Good (d.copy index instr a)
  result : ∀ kind, Good (d.result index kind)
  binary : ∀ a b kind, Good a → Good b → Good (d.binary index instr a b kind)

theorem Domain.Lawful.makes {d : Domain V} {Good : V → Prop} (hd : d.Lawful Good) (index : Nat) (instr : Instr) :
    d.Makes Good index instr :=
  ⟨hd.good_fresh, hd.good_push index instr, hd.good_copy index instr, hd.good_result index, hd.good_binary index instr⟩

namespace Frame

/-- Every value of the frame satisfies the predicate. -/
def Good (P : V → Prop) (f : Frame V) : Prop :=
  (∀ a ∈ f.locals, P a) ∧ ∀ a ∈ f.stack, P a

/-- The frame absorbs the other one, value by value. -/
def Above (d : Domain V) (f g : Frame V) : Prop :=
  List.Forall₂ d.Absorbs f.locals g.locals ∧ List.Forall₂ d.Absorbs f.stack g.stack

section Absorption

variable {d : Domain V} {P : V → Prop}

theorem forall₂_absorbs_refl (hd : d.Lawful P) {values : List V} (hgood : ∀ a ∈ values, P a) :
    List.Forall₂ d.Absorbs values values :=
  List.forall₂_same.2 fun a ha => hd.absorbs_refl a (hgood a ha)

theorem forall₂_absorbs_trans (hd : d.Lawful P) {upper middle lower : List V}
    (hupper : ∀ a ∈ upper, P a) (hmiddle : ∀ a ∈ middle, P a) (hlower : ∀ a ∈ lower, P a)
    (hfirst : List.Forall₂ d.Absorbs upper middle)
    (hsecond : List.Forall₂ d.Absorbs middle lower) :
    List.Forall₂ d.Absorbs upper lower := by
  induction hfirst generalizing lower with
  | nil =>
      cases hsecond
      exact List.Forall₂.nil
  | cons hab _ ih =>
      cases hsecond with
      | cons hbc hrest =>
          simp only [List.mem_cons, forall_eq_or_imp] at hupper hmiddle hlower
          refine List.Forall₂.cons ?_ (ih hupper.2 hmiddle.2 hlower.2 hrest)
          exact hd.absorbs_trans _ _ _ hupper.1 hmiddle.1 hlower.1 hab hbc

theorem Above.refl (hd : d.Lawful P) {f : Frame V} (hf : f.Good P) : f.Above d f :=
  ⟨forall₂_absorbs_refl hd hf.1, forall₂_absorbs_refl hd hf.2⟩

theorem Above.trans (hd : d.Lawful P) {f g h : Frame V} (hf : f.Good P) (hg : g.Good P)
    (hh : h.Good P) (hfg : f.Above d g) (hgh : g.Above d h) : f.Above d h :=
  ⟨forall₂_absorbs_trans hd hf.1 hg.1 hh.1 hfg.1 hgh.1,
    forall₂_absorbs_trans hd hf.2 hg.2 hh.2 hfg.2 hgh.2⟩

section Joining

variable (hsame : ∀ a b, d.same a b = true ↔ a = b)

include hsame

theorem mergeValue_eq (a b : V) : mergeValue d a b = (d.merge a b, !d.same (d.merge a b) a) := by
  unfold mergeValue
  by_cases hunchanged : d.same (d.merge a b) a = true
  · have hmerge := (hsame _ _).1 hunchanged
    rw [hmerge] at hunchanged
    simp [hmerge, hunchanged]
  · simp [hunchanged]

theorem mergeValues_fst (present arriving : List V) :
    (mergeValues d present arriving).1 = List.zipWith d.merge present arriving := by
  simp [mergeValues, List.map_zipWith, mergeValue_eq hsame]

theorem mergeValues_of_absorbs {present arriving : List V}
    (h : List.Forall₂ d.Absorbs present arriving) :
    mergeValues d present arriving = (present, false) := by
  induction h with
  | nil => rfl
  | cons hab _ ih =>
      simp only [mergeValues, Prod.mk.injEq] at ih
      have hunchanged := (hsame _ _).2 hab
      simp only [mergeValues, List.zipWith_cons_cons, List.map_cons, List.any_cons, ih,
        mergeValue_eq hsame, hunchanged, Bool.not_true, Bool.or_self, Prod.mk.injEq, List.cons.injEq,
        and_true]
      exact hab

/-- Joining changes no slot only where the present values absorb the arriving ones. -/
theorem mergeValues_unchanged {present arriving : List V}
    (hlength : present.length = arriving.length)
    (h : (mergeValues d present arriving).2 = false) :
    (mergeValues d present arriving).1 = present := by
  induction present generalizing arriving with
  | nil => rfl
  | cons a rest ih =>
      cases arriving with
      | nil => simp at hlength
      | cons b others =>
          simp only [mergeValues, List.zipWith_cons_cons, mergeValue_eq hsame, List.any_cons,
            Bool.or_eq_false_iff, Bool.not_eq_eq_eq_not, Bool.not_false] at h ih
          have hrest := ih (by simpa using hlength) h.2
          have hhead := (hsame _ _).1 h.1
          simp only [mergeValues, List.zipWith_cons_cons, List.map_cons, mergeValue_eq hsame, hhead,
            hrest]

/-- Frames are joined value by value, and nothing has changed only where the present frame comes out. -/
theorem merge_eq {f g merged : Frame V} {changed : Bool} (hlocals : f.locals.length = g.locals.length)
    (h : f.merge d g = .ok (merged, changed)) :
    f.stack.length = g.stack.length ∧
      merged = ⟨List.zipWith d.merge f.locals g.locals, List.zipWith d.merge f.stack g.stack⟩ ∧
      (changed = false → merged = f) := by
  unfold merge at h
  split at h
  · next hstack =>
      simp only [Except.ok.injEq, Prod.mk.injEq] at h
      obtain ⟨rfl, rfl⟩ := h
      refine ⟨hstack, by rw [mergeValues_fst hsame, mergeValues_fst hsame], fun hchanged => ?_⟩
      rw [Bool.or_eq_false_iff] at hchanged
      rw [mergeValues_unchanged hsame hlocals hchanged.1, mergeValues_unchanged hsame hstack hchanged.2]
  · cases h

end Joining

theorem zipWith_merge_good (hd : d.Lawful P) {present arriving : List V}
    (hpresent : ∀ a ∈ present, P a) (harriving : ∀ a ∈ arriving, P a) :
    ∀ a ∈ List.zipWith d.merge present arriving, P a := by
  intro a ha
  obtain ⟨index, hindex, rfl⟩ := List.mem_iff_getElem.1 ha
  rw [List.getElem_zipWith]
  exact hd.good_merge _ _ (hpresent _ (List.getElem_mem _)) (harriving _ (List.getElem_mem _))

/-- The joined values absorb the present ones and the arriving ones. -/
theorem zipWith_merge_absorbs (hd : d.Lawful P) {present arriving : List V}
    (hlength : present.length = arriving.length)
    (hpresent : ∀ a ∈ present, P a) (harriving : ∀ a ∈ arriving, P a) :
    List.Forall₂ d.Absorbs (List.zipWith d.merge present arriving) present ∧
      List.Forall₂ d.Absorbs (List.zipWith d.merge present arriving) arriving :=
  zipWith_forall₂ hlength fun a ha b hb =>
    ⟨hd.merge_absorbs_left a b (hpresent a ha) (harriving b hb),
      hd.merge_absorbs_right a b (hpresent a ha) (harriving b hb)⟩

/-- A frame that lies above an arriving one is not changed by it. -/
theorem merge_of_above (hd : d.Lawful P) {f g : Frame V} (h : f.Above d g) :
    f.merge d g = .ok (f, false) := by
  simp [merge, h.2.length_eq, mergeValues_of_absorbs hd.same_iff h.1, mergeValues_of_absorbs hd.same_iff h.2]

/-- What joining two frames gives: a frame above both, which is the present one if nothing changed. -/
theorem merge_ok (hd : d.Lawful P) {f g merged : Frame V} {changed : Bool} (hf : f.Good P)
    (hg : g.Good P) (hlocals : f.locals.length = g.locals.length)
    (h : f.merge d g = .ok (merged, changed)) :
    merged.Good P ∧ merged.locals.length = f.locals.length ∧ merged.Above d f ∧
      merged.Above d g ∧ (changed = false → merged = f) := by
  obtain ⟨hstack, rfl, hunchanged⟩ := merge_eq hd.same_iff hlocals h
  have hlocalsAbove := zipWith_merge_absorbs hd hlocals hf.1 hg.1
  have hstackAbove := zipWith_merge_absorbs hd hstack hf.2 hg.2
  refine ⟨⟨zipWith_merge_good hd hf.1 hg.1, zipWith_merge_good hd hf.2 hg.2⟩, ?_,
    ⟨hlocalsAbove.1, hstackAbove.1⟩, ⟨hlocalsAbove.2, hstackAbove.2⟩, hunchanged⟩
  rw [List.length_zipWith, hlocals, Nat.min_self]

end Absorption

section Execution

variable {d : Domain V} {P : V → Prop}

theorem mem_set_good {values : List V} {index : Nat} {a : V} (hvalues : ∀ b ∈ values, P b)
    (ha : P a) : ∀ b ∈ values.set index a, P b := by
  intro b hb
  rcases List.mem_or_eq_of_mem_set hb with hold | rfl
  · exact hvalues b hold
  · exact ha

/-- The local slots after a value was written; a wide one takes the next slot, too. -/
def written (d : Domain V) (slot : Nat) (value : V) (locals : List V) : List V :=
  if d.size value == 2 then (locals.set slot value).set (slot + 1) (d.fresh .uninitialized)
  else locals.set slot value

/-- The local slots after a wide value in front of a slot was lost. -/
def spoiled (d : Domain V) (slot : Nat) (locals : List V) : List V :=
  match slot with
  | 0 => locals
  | before + 1 =>
      match locals[before]? with
      | some left => if d.size left == 2 then locals.set before (d.fresh .uninitialized) else locals
      | none => locals

theorem setLocal_eq (d : Domain V) (index : UInt16) (value : V) (locals : List V) :
    setLocal d index value locals =
      if locals.length ≤ index.toNat || (d.size value == 2 && locals.length ≤ index.toNat + 1) then
        .error (.localOutOfRange index)
      else .ok (spoiled d index.toNat (written d index.toNat value locals)) := by
  simp only [setLocal, spoiled, written]
  split
  · rfl
  · generalize (if d.size value == 2 then (locals.set index.toNat value).set (index.toNat + 1)
      (d.fresh .uninitialized) else locals.set index.toNat value) = stored
    cases index.toNat with
    | zero => rfl
    | succ before => cases h : stored[before]? <;> simp only [h]

theorem setLocal_eq_ok {index : UInt16} {value : V} {locals stored : List V}
    (h : setLocal d index value locals = .ok stored) :
    stored = spoiled d index.toNat (written d index.toNat value locals) := by
  rw [setLocal_eq] at h
  split at h
  · cases h
  · exact (Except.ok.inj h).symm

theorem written_good {value : V} {locals : List V} (slot : Nat) (hfresh : P (d.fresh .uninitialized))
    (hlocals : ∀ b ∈ locals, P b) (hvalue : P value) : ∀ b ∈ written d slot value locals, P b := by
  unfold written
  split
  · exact mem_set_good (mem_set_good hlocals hvalue) hfresh
  · exact mem_set_good hlocals hvalue

@[simp] theorem length_written (d : Domain V) (slot : Nat) (value : V) (locals : List V) :
    (written d slot value locals).length = locals.length := by
  unfold written
  split <;> simp

/-- What is spoiled is as it was, or has one slot less that is initialized. -/
theorem spoiled_cases (d : Domain V) (slot : Nat) (locals : List V) :
    spoiled d slot locals = locals ∨ ∃ before, spoiled d slot locals = locals.set before (d.fresh .uninitialized) := by
  unfold spoiled
  split
  · exact .inl rfl
  · next before =>
      split
      · split
        · exact .inr ⟨before, rfl⟩
        · exact .inl rfl
      · exact .inl rfl

theorem setLocal_ok {index : UInt16} {a : V} {locals result : List V} (hfresh : P (d.fresh .uninitialized))
    (hlocals : ∀ b ∈ locals, P b) (ha : P a) (h : setLocal d index a locals = .ok result) :
    (∀ b ∈ result, P b) ∧ result.length = locals.length := by
  rw [setLocal_eq_ok h]
  have hwritten := written_good index.toNat hfresh hlocals ha
  rcases spoiled_cases d index.toNat (written d index.toNat a locals) with heq | ⟨before, heq⟩
  · rw [heq]
    exact ⟨hwritten, length_written d _ _ _⟩
  · rw [heq]
    exact ⟨mem_set_good hwritten hfresh, by simp⟩

/-- Moving values about makes no values but copies. -/
theorem shuffle_good {size : V → Nat} {copy : V → V} {effect : Effect} {stack result : List V}
    (hstack : ∀ a ∈ stack, P a) (hcopy : ∀ a, P a → P (copy a))
    (h : shuffle size copy effect stack = some result) : ∀ a ∈ result, P a := by
  unfold shuffle at h
  split at h <;> (repeat' split at h) <;> try simp only [Option.some.injEq, reduceCtorEq] at h
  case h_2.isTrue rest _ =>
    cases rest with
    | nil => simp at h
    | cons b rest =>
        simp only [List.tail?_cons, Option.some.injEq] at h
        simp_all
  all_goals
    subst h
    simp_all

theorem pushed_good {made : Option V} {rest : List V} (hmade : ∀ a ∈ made, P a) (hrest : ∀ a ∈ rest, P a) :
    ∀ a ∈ made.toList ++ rest, P a := by
  intro a ha
  rcases List.mem_append.1 ha with hnew | hold
  · exact hmade a (Option.mem_toList.1 hnew)
  · exact hrest a hold

theorem made_good {index : Nat} {instr : Instr} {effect : Effect} (hd : d.Makes P index instr) {stack : List V}
    (hstack : ∀ a ∈ stack, P a) : ∀ a ∈ made d index instr effect stack, P a := by
  fun_cases made d index instr effect stack with
  | case1 kind =>
      rintro a ⟨⟩
      exact hd.push kind
  | case2 | case3 =>
      intro a ha
      obtain ⟨kind, -, rfl⟩ := Option.map_eq_some_iff.1 ha
      exact hd.result kind
  | case4 result right left rest =>
      intro a ha
      obtain ⟨kind, -, rfl⟩ := Option.map_eq_some_iff.1 ha
      rw [List.forall_mem_cons, List.forall_mem_cons] at hstack
      exact hd.binary _ _ kind hstack.2.1 hstack.1
  | case5 => rintro a ⟨⟩

/-- Executing an instruction keeps the values lawful and the number of local slots. -/
theorem execute_ok {index : Nat} {instr : Instr} (hd : d.Makes P index instr) {effect : Effect} {f g : Frame V}
    (hf : f.Good P) (h : f.execute d index instr effect = .ok g) :
    g.Good P ∧ g.locals.length = f.locals.length := by
  obtain ⟨hlocals, hstack⟩ := hf
  have hrest (count : Nat) : ∀ a ∈ f.stack.drop count, P a := fun a ha => hstack a (List.mem_of_mem_drop ha)
  cases effect using Effect.byShape with
  | operands effect count hcount =>
      obtain ⟨-, rfl⟩ := execute_operands_eq_ok hcount h
      exact ⟨⟨hlocals, pushed_good (made_good hd hstack) (hrest count)⟩, rfl⟩
  | moving effect hmoving =>
      obtain ⟨stack, hmoved, rfl⟩ := execute_moving_eq_ok hmoving h
      exact ⟨⟨hlocals, shuffle_good hstack hd.copy hmoved⟩, rfl⟩
  | load slot =>
      obtain ⟨value, hvalue, rfl⟩ := execute_load_eq_ok.1 h
      have hgood := hd.copy value (hlocals _ (List.mem_of_getElem? hvalue))
      exact ⟨⟨hlocals, List.forall_mem_cons.2 ⟨hgood, hstack⟩⟩, rfl⟩
  | store slot =>
      obtain ⟨value, rest, stored, hvalues, hstored, rfl⟩ := execute_store_eq_ok.1 h
      rw [hvalues, List.forall_mem_cons] at hstack
      obtain ⟨hgood, hlength⟩ := setLocal_ok (hd.fresh _) hlocals (hd.copy value hstack.1) hstored
      exact ⟨⟨hgood, hstack.2⟩, hlength⟩
  | iinc slot =>
      obtain ⟨-, stored, hstored, rfl⟩ := execute_iinc_eq_ok.1 h
      obtain ⟨hgood, hlength⟩ := setLocal_ok (hd.fresh _) hlocals (hd.result .int) hstored
      exact ⟨⟨hgood, hstack⟩, hlength⟩
  | exit effect hexit =>
      obtain ⟨count, hexecute⟩ := exists_execute_exit hexit index instr
      rw [hexecute] at h
      split at h
      · cases h
      · cases h
        exact ⟨⟨hlocals, hrest count⟩, rfl⟩

end Execution

end Frame

end Unscramble
