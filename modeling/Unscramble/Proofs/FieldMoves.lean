/-
Moving static fields keeps links.  An instruction is linked if the class that it names declares its field.  The fields
that are still to be moved are declared where they were, and only code of their targets names them: this holds before
the first move, every move keeps it, and so no move takes a field away from an instruction that names it.
-/
import Unscramble.Cleanup.FieldRelocation
import Unscramble.Proofs.FieldLookup

namespace Unscramble

/-- The instruction names a class that declares its field, with this declaration. -/
def ClassPool.Linked (pool : ClassPool) (p : MethodPlace) (i : Nat) (op : Opcode) (f : FieldDecl) : Prop :=
  ∃ owner c, pool.instrAt? p i = some (.field op ⟨owner, f.name, f.descriptor⟩) ∧ pool.get? owner = some c ∧
    c.field? f.name f.descriptor = some f

/-- In every class, no two fields share name and type. -/
def ClassPool.DistinctFields (pool : ClassPool) : Prop :=
  ∀ c ∈ pool.classes, (c.fields.map fun f => (f.name, f.descriptor)).Nodup

instance (pool : ClassPool) : Decidable pool.DistinctFields :=
  inferInstanceAs (Decidable (∀ c ∈ pool.classes, _))

namespace FieldMove

open ClassPool

variable {pool : ClassPool} {move : FieldMove} {moves : List FieldMove} {moved f : FieldDecl} {c : ClassDecl}
  {name descriptor : String} {p : MethodPlace} {i : Nat} {op : Opcode}

theorem is_of_field? (h : c.field? name descriptor = some f) : f.name = name ∧ f.descriptor = descriptor := by
  simpa [FieldDecl.is] using List.find?_some h

section Move

/-- The pool after a move, which is made only if the target can take the field. -/
def carry (pool : ClassPool) (move : FieldMove) : ClassPool :=
  if (pool.get? move.target).any (canReceive move.field.name) then
    match move.declaration? pool with
    | some moved => pool.map (move.update moved) (move.name_update moved)
    | none => pool
  else pool

/-- The target of a move that is made has no field with the name of the one that it takes. -/
theorem carry_cases (pool : ClassPool) (move : FieldMove) : carry pool move = pool ∨
    ∃ target moved, pool.get? move.target = some target ∧ (∀ f ∈ target.fields, f.name ≠ move.field.name) ∧
      move.declaration? pool = some moved ∧
      carry pool move = pool.map (move.update moved) (move.name_update moved) := by
  unfold carry
  split
  · next hreceives =>
      obtain ⟨target, htarget, hreceives⟩ := (Option.any_eq_true _ _).1 hreceives
      have hclear : ∀ f ∈ target.fields, f.name ≠ move.field.name := by
        intro f hf
        simp only [canReceive, Bool.and_eq_true, Bool.not_eq_true', List.any_eq_false, beq_iff_eq] at hreceives
        exact hreceives.2 f hf
      split
      · next moved hmoved => exact .inr ⟨target, moved, htarget, hclear, hmoved, rfl⟩
      · exact .inl rfl
  · exact .inl rfl

theorem find?_eraseP_of_disjoint {α : Type} {q r : α → Bool} (h : ∀ a, r a = true → q a = false) (l : List α) :
    (l.eraseP r).find? q = l.find? q := by
  induction l with
  | nil => rfl
  | cons a rest ih =>
      cases hr : r a with
      | true => rw [List.eraseP_cons_of_pos hr, List.find?_cons_of_neg (by simp [h a hr])]
      | false =>
          rw [List.eraseP_cons_of_neg (by simp [hr]), List.find?_cons, List.find?_cons, ih]

/-- A move keeps every declaration but the one that it moves. -/
theorem field?_update_of_ne (hf : c.field? name descriptor = some f) (hne : ⟨c.name, name, descriptor⟩ ≠ move.field) :
    (move.update moved c).field? name descriptor = some f := by
  unfold update
  split
  · next howner =>
      refine (find?_eraseP_of_disjoint (fun other hother => ?_) c.fields).trans hf
      rw [Bool.eq_false_iff]
      intro hsame
      simp only [FieldDecl.is, Bool.and_eq_true, beq_iff_eq] at hother hsame
      exact hne (by rw [howner, ← hsame.1, ← hsame.2, hother.1, hother.2])
  · split
    · rw [ClassDecl.field?] at hf ⊢
      rw [List.find?_append, hf]
      rfl
    · exact hf

/-- The target declares the moved field. -/
theorem field?_update_target (hname : c.name = move.target) (hforeign : move.target ≠ move.field.owner)
    (hclear : ∀ f ∈ c.fields, f.name ≠ move.field.name)
    (hmoved : moved.name = move.field.name ∧ moved.descriptor = move.field.descriptor) :
    (move.update moved c).field? move.field.name move.field.descriptor = some moved := by
  have hnone : c.fields.find? (·.is move.field.name move.field.descriptor) = none := by
    rw [List.find?_eq_none]
    intro f hf his
    simp only [FieldDecl.is, Bool.and_eq_true, beq_iff_eq] at his
    exact hclear f hf his.1
  rw [update, if_neg (hname ▸ hforeign), if_pos hname, ClassDecl.field?, List.find?_append, hnone]
  simp [FieldDecl.is, hmoved.1, hmoved.2]

/-- A move changes the code of its target only. -/
theorem instrAt?_map_update (hforeign : move.target ≠ move.field.owner) :
    (pool.map (move.update moved) (move.name_update moved)).instrAt? p i =
      (pool.instrAt? p i).map fun instr => if p.owner = move.target then move.redirect instr else instr := by
  rw [instrAt?, instrAt?, methodAt?, methodAt?, get?_map]
  cases hget : pool.get? p.owner with
  | none => rfl
  | some c =>
      obtain ⟨-, hname⟩ := get?_eq_some.1 hget
      simp only [Option.map_some, Option.bind_some, update, hname]
      by_cases htarget : p.owner = move.target
      · rw [if_neg (htarget ▸ hforeign), if_pos htarget]
        simp only [htarget, if_true, List.getElem?_map]
        cases c.methods[p.index]? with
        | none => rfl
        | some m => exact List.getElem?_map
      · simp only [htarget, if_false, Option.map_id']
        split <;> rfl

end Move

section Moves

/-- Moves that are still to be made: each of another field, which is declared where it was and which only code of the
target names. -/
structure Awaited (pool : ClassPool) (moves : List FieldMove) : Prop where
  distinct : (moves.map FieldMove.field).Nodup
  foreign : ∀ move ∈ moves, move.target ≠ move.field.owner
  declared : ∀ move ∈ moves, (move.declaration? pool).isSome = true
  used : ∀ move ∈ moves, ∀ p i op, pool.instrAt? p i = some (.field op move.field) → p.owner = move.target

theorem declaration?_eq_some : move.declaration? pool = some f ↔
    ∃ c, pool.get? move.field.owner = some c ∧ c.field? move.field.name move.field.descriptor = some f :=
  Option.bind_eq_some_iff

/-- A move leaves all other moves as they were: the target had no field of this name, so none is awaited there. -/
theorem Awaited.carry (h : Awaited pool (move :: moves)) : Awaited (carry pool move) moves := by
  have hdistinct := List.nodup_cons.1 h.distinct
  have hforeign := h.foreign move List.mem_cons_self
  refine ⟨hdistinct.2, fun other hother => h.foreign other (List.mem_cons_of_mem _ hother), ?_, ?_⟩
  · intro other hother
    have hne : other.field ≠ move.field := fun heq => hdistinct.1 (heq ▸ List.mem_map_of_mem hother)
    obtain ⟨f, hf⟩ := Option.isSome_iff_exists.1 (h.declared other (List.mem_cons_of_mem _ hother))
    rcases carry_cases pool move with heq | ⟨target, moved, -, -, -, heq⟩
    · rw [heq, hf]
      rfl
    · obtain ⟨c, hget, hfield⟩ := declaration?_eq_some.1 hf
      have hkept : (move.update moved c).field? other.field.name other.field.descriptor = some f := by
        refine field?_update_of_ne hfield ?_
        rwa [(get?_eq_some.1 hget).2]
      rw [heq, declaration?_eq_some.2 ⟨_, (get?_map ..).trans (congrArg _ hget), hkept⟩]
      rfl
  · intro other hother p i op hinstr
    have hused := h.used other (List.mem_cons_of_mem _ hother)
    rcases carry_cases pool move with heq | ⟨target, moved, htarget, hclear, -, heq⟩
    · exact hused p i op (heq ▸ hinstr)
    · rw [heq, instrAt?_map_update hforeign, Option.map_eq_some_iff] at hinstr
      obtain ⟨instr, hbefore, hinstr⟩ := hinstr
      split at hinstr
      · next hp =>
          cases instr with
          | field op' ref =>
              by_cases href : ref = move.field
              · -- the instruction now names the target, which did not declare such a field
                simp only [redirect, if_pos href, Instr.field.injEq] at hinstr
                obtain ⟨f, hf⟩ := Option.isSome_iff_exists.1 (h.declared other (List.mem_cons_of_mem _ hother))
                obtain ⟨c, hget, hfield⟩ := declaration?_eq_some.1 hf
                rw [← hinstr.2] at hget hfield
                obtain rfl := Option.some.inj (htarget.symm.trans hget)
                refine absurd (is_of_field? hfield).1 ?_
                rw [href]
                exact hclear f (List.mem_of_find?_eq_some hfield)
              · simp only [redirect, if_neg href, Instr.field.injEq] at hinstr
                obtain ⟨rfl, rfl⟩ := hinstr
                exact hused p i op' hbefore
          | _ => cases hinstr
      · subst hinstr
        exact hused p i op hbefore

/-- A move keeps every link: the instructions that name its field all belong to the target and follow the field. -/
theorem Awaited.linked (h : Awaited pool (move :: moves)) (hlinked : pool.Linked p i op f) :
    (FieldMove.carry pool move).Linked p i op f := by
  have hforeign := h.foreign move List.mem_cons_self
  rcases carry_cases pool move with heq | ⟨target, moved, htarget, hclear, hmoved, heq⟩
  · rwa [heq]
  · rw [heq]
    obtain ⟨owner, c, hinstr, hget, hfield⟩ := hlinked
    by_cases hfollows : MemberRef.mk owner f.name f.descriptor = move.field
    · have hp := h.used move List.mem_cons_self p i op (hfollows ▸ hinstr)
      obtain ⟨source, hsource, hdeclared⟩ := declaration?_eq_some.1 hmoved
      rw [← hfollows] at hsource hdeclared
      obtain rfl := Option.some.inj (hsource.symm.trans hget)
      obtain rfl := Option.some.inj (hdeclared.symm.trans hfield)
      have htaken := field?_update_target (get?_eq_some.1 htarget).2 hforeign hclear
        (by rw [← hfollows]; exact ⟨rfl, rfl⟩ : moved.name = move.field.name ∧ moved.descriptor = move.field.descriptor)
      rw [← hfollows] at htaken
      refine ⟨move.target, _, ?_, (get?_map ..).trans (congrArg _ htarget), htaken⟩
      rw [instrAt?_map_update hforeign, hinstr, Option.map_some, if_pos hp, redirect, if_pos hfollows]
    · refine ⟨owner, _, ?_, (get?_map ..).trans (congrArg _ hget), field?_update_of_ne hfield ?_⟩
      · rw [instrAt?_map_update hforeign, hinstr, Option.map_some, redirect, if_neg hfollows, ite_self]
      · rwa [(get?_eq_some.1 hget).2]

/-- A run of moves keeps every link. -/
theorem Awaited.linked_foldl (h : Awaited pool moves) (hlinked : pool.Linked p i op f) :
    (moves.foldl FieldMove.carry pool).Linked p i op f := by
  induction moves generalizing pool with
  | nil => exact hlinked
  | cons move moves ih => exact ih h.carry (h.linked hlinked)

end Moves

section Plan

theorem ofField?_eq_some : ofField? pool c f = some move ↔ f.isStatic = true ∧
    users pool ⟨c.name, f.name, f.descriptor⟩ = [move.target] ∧ move.target ≠ c.name ∧
    move.field = ⟨c.name, f.name, f.descriptor⟩ := by
  obtain ⟨field, target⟩ := move
  unfold ofField?
  dsimp only
  split
  · next user hstatic husers =>
      rw [hstatic, husers, List.cons.injEq, eq_self, true_and, eq_self, and_true]
      split
      · next heq =>
          simp only [reduceCtorEq, false_iff, not_and]
          rintro rfl hne
          exact absurd heq hne
      · next hne =>
          rw [Option.some.injEq, FieldMove.mk.injEq]
          constructor
          · rintro ⟨rfl, rfl⟩
            exact ⟨rfl, hne, rfl⟩
          · rintro ⟨rfl, -, rfl⟩
            exact ⟨rfl, rfl⟩
  · next hother =>
      simp only [reduceCtorEq, false_iff, not_and]
      intro hstatic husers
      exact absurd husers (hother target hstatic)

theorem mem_all : move ∈ all pool ↔ ∃ c ∈ pool.classes, ∃ f ∈ c.fields, ofField? pool c f = some move := by
  simp only [all, List.mem_flatMap, List.mem_filterMap]

/-- The code of a class in which a field is named uses it. -/
theorem mem_users {ref : MemberRef} (h : pool.instrAt? p i = some (.field op ref)) : p.owner ∈ users pool ref := by
  obtain ⟨m, hm, hinstr⟩ := Option.bind_eq_some_iff.1 h
  obtain ⟨c, hget, hindex⟩ := Option.bind_eq_some_iff.1 hm
  obtain ⟨hc, hname⟩ := get?_eq_some.1 hget
  refine List.mem_map.2 ⟨c, List.mem_filter.2 ⟨hc, ?_⟩, hname⟩
  refine List.any_eq_true.2 ⟨m, List.mem_of_getElem? hindex, List.any_eq_true.2 ⟨_, List.mem_of_getElem? hinstr, ?_⟩⟩
  exact beq_self_eq_true ref

/-- Every field is moved at most once. -/
theorem nodup_fields_all (hfields : pool.DistinctFields) : ((all pool).map FieldMove.field).Nodup := by
  refine List.pairwise_map.2 (List.pairwise_flatMap.2 ⟨fun c hc => ?_, ?_⟩)
  · refine List.pairwise_filterMap.2 ((List.pairwise_map.1 (hfields c hc)).imp ?_)
    intro f g hne first hfirst second hsecond heq
    rw [(ofField?_eq_some.1 hfirst).2.2.2, (ofField?_eq_some.1 hsecond).2.2.2, MemberRef.mk.injEq] at heq
    exact hne (Prod.ext heq.2.1 heq.2.2)
  · refine (List.pairwise_map.1 pool.ordered).imp fun {c d} hlt first hfirst second hsecond heq => ?_
    obtain ⟨f, -, hf⟩ := List.mem_filterMap.1 hfirst
    obtain ⟨g, -, hg⟩ := List.mem_filterMap.1 hsecond
    rw [(ofField?_eq_some.1 hf).2.2.2, (ofField?_eq_some.1 hg).2.2.2, MemberRef.mk.injEq] at heq
    exact String.lt_irrefl _ (heq.1 ▸ hlt)

/-- Before the first move all moves are awaited. -/
theorem awaited_all (hfields : pool.DistinctFields) : Awaited pool (all pool) := by
  refine ⟨nodup_fields_all hfields, ?_, ?_, ?_⟩
  · intro move hmove
    obtain ⟨c, -, f, -, hof⟩ := mem_all.1 hmove
    obtain ⟨-, -, hne, hfield⟩ := ofField?_eq_some.1 hof
    rwa [hfield]
  · intro move hmove
    obtain ⟨c, hc, f, hf, hof⟩ := mem_all.1 hmove
    obtain ⟨-, -, -, hfield⟩ := ofField?_eq_some.1 hof
    rw [declaration?, hfield, get?_eq_some.2 ⟨hc, rfl⟩, Option.bind_some, ClassDecl.field?, List.find?_isSome]
    exact ⟨f, hf, by simp [FieldDecl.is]⟩
  · intro move hmove p i op hinstr
    obtain ⟨c, -, f, -, hof⟩ := mem_all.1 hmove
    obtain ⟨-, husers, -, hfield⟩ := ofField?_eq_some.1 hof
    have hmem := mem_users hinstr
    rw [hfield, husers] at hmem
    exact List.mem_singleton.1 hmem

end Plan

section Runs

variable {ε : Type}

theorem apply_eq (pool : ClassPool) (count : Nat) (move : FieldMove) (log : Log) :
    ∃ count' log', (apply (pool, count) move : Logged ε (ClassPool × Nat)) log =
      .ok (carry pool move, count') log' := by
  unfold apply carry
  dsimp only
  split
  · cases move.declaration? pool with
    | some moved => exact ⟨_, _, rfl⟩
    | none => exact ⟨_, _, rfl⟩
  · exact ⟨_, _, rfl⟩

theorem foldlM_apply_eq (moves : List FieldMove) (pool : ClassPool) (count : Nat) (log : Log) :
    ∃ count' log', (moves.foldlM apply (pool, count) : Logged ε (ClassPool × Nat)) log =
      .ok (moves.foldl carry pool, count') log' := by
  induction moves generalizing pool count log with
  | nil => exact ⟨count, log, rfl⟩
  | cons move moves ih =>
      obtain ⟨count₁, log₁, hfirst⟩ := apply_eq (ε := ε) pool count move log
      obtain ⟨count₂, log₂, hrest⟩ := ih (carry pool move) count₁ log₁
      refine ⟨count₂, log₂, ?_⟩
      rw [List.foldlM_cons]
      simp only [bind, EStateM.bind, hfirst]
      exact hrest

end Runs

end FieldMove

namespace ClassPool

/-- The pool after all moves that the uses of fields call for. -/
def relocated (pool : ClassPool) : ClassPool :=
  (FieldMove.all pool).foldl FieldMove.carry pool

theorem run_relocateStaticFields (ε : Type) (pool : ClassPool) :
    ∃ lines count, (pool.relocateStaticFields : Logged ε (ClassPool × Nat)).run =
      (lines, .ok (pool.relocated, count)) := by
  obtain ⟨count, log, hmoves⟩ := FieldMove.foldlM_apply_eq (ε := ε) (FieldMove.all pool) pool 0 []
  refine ⟨(⟨.info, s!"Inlined {count} static single reference fields."⟩ :: log).reverse, count, ?_⟩
  simp only [relocateStaticFields, Logged.run, EStateM.run, bind, EStateM.bind, hmoves]
  rfl

end ClassPool

end Unscramble
