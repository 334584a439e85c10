/-
Fields and the declarations that they are looked up to.  Making an instruction name the class that declares its field
keeps the declaration if the first fitting one on the way up through the super classes is that very declaration, or if
that way ends inside the pool without one; in all other cases the declaration is lost.  What is lost are fields that are
inherited through an interface.
-/
import Mathlib.Logic.Relation
import Unscramble.Cleanup.FieldOwner
import Unscramble.Proofs.MethodPlaces

namespace Unscramble

/-- The direct super types in the order in which fields are looked up: the interfaces before the super class. -/
def ClassDecl.fieldSupers (c : ClassDecl) : List String :=
  c.interfaces ++ c.superName.toList

namespace ClassPool

variable {pool : ClassPool} {name descriptor k sub sup : String} {c : ClassDecl}

section Lookup

/-- What a field is looked up to from a class on: the declaration of the class itself, or else the first one that is
found through its interfaces and then its super class.  Classes outside the pool have no declarations. -/
inductive Finds (pool : ClassPool) (name descriptor : String) : String → Option (String × FieldDecl) → Prop where
  | outside {k : String} : pool.get? k = none → Finds pool name descriptor k none
  | own {k : String} {c : ClassDecl} {f : FieldDecl} : pool.get? k = some c →
      c.field? name descriptor = some f → Finds pool name descriptor k (some (k, f))
  | inherited {k sup : String} {c : ClassDecl} {before behind : List String} {found : String × FieldDecl} :
      pool.get? k = some c → c.field? name descriptor = none → c.fieldSupers = before ++ sup :: behind →
      (∀ other ∈ before, Finds pool name descriptor other none) → Finds pool name descriptor sup (some found) →
      Finds pool name descriptor k (some found)
  | nowhere {k : String} {c : ClassDecl} : pool.get? k = some c → c.field? name descriptor = none →
      (∀ sup ∈ c.fieldSupers, Finds pool name descriptor sup none) → Finds pool name descriptor k none

variable {a b : Option (String × FieldDecl)}

/-- A field is looked up to one declaration only. -/
theorem Finds.unique (h : pool.Finds name descriptor k a) (h' : pool.Finds name descriptor k b) : a = b := by
  induction h generalizing b with
  | outside hget =>
      cases h' with
      | outside => rfl
      | own hget' | inherited hget' | nowhere hget' => exact absurd (hget.symm.trans hget') nofun
  | own hget hfield =>
      cases h' with
      | outside hget' => exact absurd (hget.symm.trans hget') nofun
      | own hget' hfield' =>
          obtain rfl := Option.some.inj (hget.symm.trans hget')
          obtain rfl := Option.some.inj (hfield.symm.trans hfield')
          rfl
      | inherited hget' hnone | nowhere hget' hnone =>
          obtain rfl := Option.some.inj (hget.symm.trans hget')
          exact absurd (hfield.symm.trans hnone) nofun
  | @inherited k sup c before behind found hget hnone hsupers _ _ ihbefore ih =>
      cases h' with
      | outside hget' => exact absurd (hget.symm.trans hget') nofun
      | own hget' hfield' =>
          obtain rfl := Option.some.inj (hget.symm.trans hget')
          exact absurd (hnone.symm.trans hfield') nofun
      | @inherited _ sup' _ before' behind' found' hget' _ hsupers' hbefore' hfound' =>
          obtain rfl := Option.some.inj (hget.symm.trans hget')
          -- whichever of the two places comes first, nothing is found in front of the other one
          have hplaces := hsupers.symm.trans hsupers'
          rw [List.append_eq_append_iff] at hplaces
          rcases hplaces with ⟨between, rfl, hrest⟩ | ⟨between, rfl, hrest⟩
          · cases between with
            | nil =>
                obtain ⟨rfl, -⟩ := List.cons.inj hrest
                exact ih hfound'
            | cons other between =>
                obtain ⟨rfl, -⟩ := List.cons.inj hrest
                exact absurd (ih (hbefore' sup (by simp))) nofun
          · cases between with
            | nil =>
                obtain ⟨rfl, -⟩ := List.cons.inj hrest
                exact ih hfound'
            | cons other between =>
                obtain ⟨rfl, -⟩ := List.cons.inj hrest
                exact absurd (ihbefore sup' (by simp) hfound') nofun
      | nowhere hget' _ hall =>
          obtain rfl := Option.some.inj (hget.symm.trans hget')
          exact absurd (ih (hall sup (by rw [hsupers]; simp))) nofun
  | @nowhere k c hget hnone hall ih =>
      cases h' with
      | outside | nowhere => rfl
      | own hget' hfield' =>
          obtain rfl := Option.some.inj (hget.symm.trans hget')
          exact absurd (hnone.symm.trans hfield') nofun
      | @inherited _ sup' _ before' behind' found' hget' _ hsupers' _ hfound' =>
          obtain rfl := Option.some.inj (hget.symm.trans hget')
          exact ih sup' (by rw [hsupers']; simp) hfound'

/-- The class that is found declares the field. -/
theorem Finds.declared {found : String × FieldDecl} (h : pool.Finds name descriptor k (some found)) :
    ∃ c, pool.get? found.1 = some c ∧ c.field? name descriptor = some found.2 := by
  generalize hresult : some found = result at h
  induction h with
  | outside => cases hresult
  | own hget hfield =>
      obtain rfl := Option.some.inj hresult
      exact ⟨_, hget, hfield⟩
  | inherited _ _ _ _ _ _ ih =>
      obtain rfl := Option.some.inj hresult
      exact ih rfl
  | nowhere => cases hresult

/-- Changing methods changes no lookup of fields. -/
theorem Finds.mapMethods (h : pool.Finds name descriptor k a) (f : ClassDecl → MethodDecl → MethodDecl) :
    (pool.mapMethods f).Finds name descriptor k a := by
  induction h with
  | outside hget => exact .outside ((get?_mapMethods _).trans (congrArg _ hget))
  | own hget hfield => exact .own ((get?_mapMethods _).trans (congrArg _ hget)) hfield
  | inherited hget hnone hsupers _ _ ihbefore ih =>
      exact .inherited ((get?_mapMethods _).trans (congrArg _ hget)) hnone hsupers ihbefore ih
  | nowhere hget hnone _ ih => exact .nowhere ((get?_mapMethods _).trans (congrArg _ hget)) hnone ih

end Lookup

section Ascent

/-- The class `sub` of the pool has `sup` as its super class. -/
def Inherits (pool : ClassPool) (sub sup : String) : Prop :=
  ∃ c, pool.get? sub = some c ∧ c.superName = some sup

/-- The way up through super classes never comes back to a class. -/
def Rooted (pool : ClassPool) : Prop :=
  ∀ name, ¬ Relation.TransGen pool.Inherits name name

theorem Inherits.extends (h : pool.Inherits sub sup) : pool.Extends sub sup := by
  obtain ⟨c, hget, hsup⟩ := h
  exact extends_iff.2 ⟨c, hget, by simp [ClassDecl.supers, hsup]⟩

theorem Acyclic.rooted (h : pool.Acyclic) : pool.Rooted :=
  fun name hloop => h name (hloop.lift id fun _ _ => Inherits.extends)

/-- The class `top` is the first one with a property, from a class on upwards through super classes in the pool. -/
inductive Nearest (pool : ClassPool) (p : ClassDecl → Bool) : String → String → Prop where
  | own {k : String} {c : ClassDecl} : pool.get? k = some c → p c = true → Nearest pool p k k
  | inherited {k sup top : String} {c : ClassDecl} : pool.get? k = some c → p c = false →
      c.superName = some sup → Nearest pool p sup top → Nearest pool p k top

/-- From a class on upwards no class has the property, and the last one is a class of the pool. -/
inductive Exhausted (pool : ClassPool) (p : ClassDecl → Bool) : String → Prop where
  | last {k : String} {c : ClassDecl} : pool.get? k = some c → p c = false → c.superName = none →
      Exhausted pool p k
  | inherited {k sup : String} {c : ClassDecl} : pool.get? k = some c → p c = false →
      c.superName = some sup → Exhausted pool p sup → Exhausted pool p k

theorem Nearest.holds {p : ClassDecl → Bool} {top : String} (h : pool.Nearest p k top) :
    ∃ c, pool.get? top = some c ∧ p c = true := by
  induction h with
  | own hget hp => exact ⟨_, hget, hp⟩
  | inherited _ _ _ _ ih => exact ih

end Ascent

end ClassPool

namespace FieldOwner

open ClassPool

variable {pool : ClassPool} {op : Opcode} {ref : MemberRef} {k top : String}

/-- Without cycles the way up gets shorter with each class. -/
theorem reachCount_super_lt {c : ClassDecl} {sup : String} (hrooted : pool.Rooted) (hget : pool.get? k = some c)
    (hsup : c.superName = some sup) : pool.reachCount pool.Inherits sup < pool.reachCount pool.Inherits k := by
  have hinherits : pool.Inherits k sup := ⟨c, hget, hsup⟩
  exact reachCount_lt hrooted hinherits.extends.mem_names hinherits

/-- A class on the way up takes a step of the search, and the steps that are left are enough for its super class. -/
theorem search_inherited {c : ClassDecl} {sup : String} {steps : Nat} (hrooted : pool.Rooted)
    (hget : pool.get? k = some c) (hdeclares : c.declaresField op ref = false) (hsup : c.superName = some sup)
    (hsteps : pool.reachCount pool.Inherits k < steps) :
    ∃ left, pool.reachCount pool.Inherits sup < left ∧ search pool op ref steps k = search pool op ref left sup := by
  obtain ⟨left, rfl⟩ := Nat.exists_eq_succ_of_ne_zero (Nat.ne_zero_of_lt hsteps)
  have hless := reachCount_super_lt hrooted hget hsup
  refine ⟨left, by omega, ?_⟩
  simp only [search, hget, hdeclares, hsup, Bool.false_eq_true, if_false]

theorem search_eq_of_nearest (hrooted : pool.Rooted) (h : pool.Nearest (·.declaresField op ref) k top) {steps : Nat}
    (hsteps : pool.reachCount pool.Inherits k < steps) : search pool op ref steps k = top := by
  induction h generalizing steps with
  | own hget hdeclares =>
      obtain ⟨steps, rfl⟩ := Nat.exists_eq_succ_of_ne_zero (Nat.ne_zero_of_lt hsteps)
      simp only [search, hget, hdeclares, if_true]
  | inherited hget hdeclares hsup _ ih =>
      obtain ⟨left, hleft, heq⟩ := search_inherited hrooted hget hdeclares hsup hsteps
      rw [heq]
      exact ih hleft

theorem search_eq_of_exhausted (hrooted : pool.Rooted) (h : pool.Exhausted (·.declaresField op ref) k) {steps : Nat}
    (hsteps : pool.reachCount pool.Inherits k < steps) : search pool op ref steps k = ref.owner := by
  induction h generalizing steps with
  | last hget hdeclares hsup =>
      obtain ⟨steps, rfl⟩ := Nat.exists_eq_succ_of_ne_zero (Nat.ne_zero_of_lt hsteps)
      simp [search, hget, hdeclares, hsup]
  | inherited hget hdeclares hsup _ ih =>
      obtain ⟨left, hleft, heq⟩ := search_inherited hrooted hget hdeclares hsup hsteps
      rw [heq]
      exact ih hleft

/-- The search ends at the first class that declares the field, stays at the named class if the way up ends inside the
pool, and else ends outside of it. -/
theorem search_cases (hrooted : pool.Rooted) {steps : Nat} (hsteps : pool.reachCount pool.Inherits k < steps) :
    pool.Nearest (·.declaresField op ref) k (search pool op ref steps k) ∨
      pool.Exhausted (·.declaresField op ref) k ∧ search pool op ref steps k = ref.owner ∨
      pool.get? (search pool op ref steps k) = none := by
  induction steps generalizing k with
  | zero => cases hsteps
  | succ steps ih =>
      rw [search]
      split
      · next hget => exact .inr (.inr hget)
      · next c hget =>
          split
          · next hdeclares => exact .inl (.own hget hdeclares)
          · next hdeclares =>
              have hdeclares := eq_false_of_ne_true hdeclares
              split
              · next sup hsup =>
                  have hless := reachCount_super_lt hrooted hget hsup
                  rcases ih (k := sup) (by omega) with h | ⟨h, heq⟩ | h
                  · exact .inl (.inherited hget hdeclares hsup h)
                  · exact .inr (.inl ⟨.inherited hget hdeclares hsup h, heq⟩)
                  · exact .inr (.inr h)
              · next hsup => exact .inr (.inl ⟨.last hget hdeclares hsup, rfl⟩)

theorem resolve_eq_of_nearest (hrooted : pool.Rooted)
    (h : pool.Nearest (·.declaresField op ref) ref.owner top) : resolve pool op ref = top :=
  search_eq_of_nearest hrooted h (Nat.lt_succ_of_le (reachCount_le_size ..))

theorem resolve_eq_of_exhausted (hrooted : pool.Rooted)
    (h : pool.Exhausted (·.declaresField op ref) ref.owner) : resolve pool op ref = ref.owner :=
  search_eq_of_exhausted hrooted h (Nat.lt_succ_of_le (reachCount_le_size ..))

theorem resolve_cases (hrooted : pool.Rooted) (op : Opcode) (ref : MemberRef) :
    pool.Nearest (·.declaresField op ref) ref.owner (resolve pool op ref) ∨
      pool.Exhausted (·.declaresField op ref) ref.owner ∧ resolve pool op ref = ref.owner ∨
      pool.get? (resolve pool op ref) = none :=
  search_cases hrooted (Nat.lt_succ_of_le (reachCount_le_size ..))

end FieldOwner

namespace ClassPool

variable {pool after : ClassPool} {p : MethodPlace} {i : Nat} {op : Opcode} {ref : MemberRef}

/-- The instruction of a method. -/
def instrAt? (pool : ClassPool) (p : MethodPlace) (i : Nat) : Option Instr :=
  (pool.methodAt? p).bind (·.code[i]?)

theorem instrAt?_mapMethods (f : Instr → Instr) (pool : ClassPool) (p : MethodPlace) (i : Nat) :
    (pool.mapMethods fun _ m => { m with code := m.code.map f }).instrAt? p i = (pool.instrAt? p i).map f := by
  rw [instrAt?, instrAt?, methodAt?_mapMethods fun m => { m with code := m.code.map f }]
  cases pool.methodAt? p with
  | none => rfl
  | some m => exact List.getElem?_map

/-- The pool in which every instruction on a field names the class that the search upwards ends at. -/
def resolved (pool : ClassPool) : ClassPool :=
  pool.mapMethods fun _ m => { m with code := m.code.map (FieldOwner.resolveInstr pool) }

theorem run_resolveFieldOwners (ε : Type) (pool : ClassPool) :
    ∃ lines count, (pool.resolveFieldOwners : Logged ε (ClassPool × Nat)).run = (lines, .ok (pool.resolved, count)) :=
  ⟨_, _, rfl⟩

theorem instrAt?_resolved (h : pool.instrAt? p i = some (.field op ref)) :
    pool.resolved.instrAt? p i = some (.field op { ref with owner := FieldOwner.resolve pool op ref }) := by
  rw [resolved, instrAt?_mapMethods, h]
  rfl

/-- Where the first fitting declaration on the way up is another one, the lookup finds that one; and outside the pool it
finds nothing. -/
theorem finds_resolved_iff (hrooted : pool.Rooted) {found : String × FieldDecl}
    (h : pool.Finds ref.name ref.descriptor ref.owner (some found)) :
    pool.resolved.Finds ref.name ref.descriptor (FieldOwner.resolve pool op ref) (some found) ↔
      pool.Nearest (·.declaresField op ref) ref.owner found.1 ∨
        pool.Exhausted (·.declaresField op ref) ref.owner := by
  constructor
  · intro hafter
    rcases FieldOwner.resolve_cases hrooted op ref with hnearest | ⟨hexhausted, -⟩ | houtside
    · obtain ⟨c, hget, hdeclares⟩ := hnearest.holds
      obtain ⟨f, hf, hfits⟩ := List.any_eq_true.1 hdeclares
      rw [Bool.and_eq_true] at hfits
      obtain ⟨first, hfirst⟩ := Option.isSome_iff_exists.1 (List.find?_isSome.2 ⟨f, hf, hfits.1⟩)
      have hown := (Finds.own hget hfirst).mapMethods
        fun _ m => { m with code := m.code.map (FieldOwner.resolveInstr pool) }
      obtain rfl := Option.some.inj (hafter.unique hown)
      exact .inl hnearest
    · exact .inr hexhausted
    · have hnone : pool.Finds ref.name ref.descriptor (FieldOwner.resolve pool op ref) none := .outside houtside
      exact absurd (hafter.unique (hnone.mapMethods _)) nofun
  · rintro (hnearest | hexhausted)
    · obtain ⟨c, hget, hfield⟩ := h.declared
      rw [FieldOwner.resolve_eq_of_nearest hrooted hnearest]
      exact (Finds.own hget hfield).mapMethods _
    · rw [FieldOwner.resolve_eq_of_exhausted hrooted hexhausted]
      exact h.mapMethods _

/-- After the owners of field instructions are resolved, an instruction still finds the declaration that it found before
exactly if that is the first fitting one on the way up through super classes, or if that way ends inside the pool
without one. -/
theorem resolveFieldOwners_keeps_lookup {ε : Type} (hacyclic : pool.Acyclic) :
    ∃ lines after count,
      (pool.resolveFieldOwners : Logged ε (ClassPool × Nat)).run = (lines, .ok (after, count)) ∧
      ∀ p i op ref, pool.instrAt? p i = some (.field op ref) →
        ∃ owner, after.instrAt? p i = some (.field op { ref with owner }) ∧
          ∀ found, pool.Finds ref.name ref.descriptor ref.owner (some found) →
            (after.Finds ref.name ref.descriptor owner (some found) ↔
              pool.Nearest (·.declaresField op ref) ref.owner found.1 ∨
                pool.Exhausted (·.declaresField op ref) ref.owner) := by
  obtain ⟨lines, count, hrun⟩ := run_resolveFieldOwners ε pool
  refine ⟨lines, pool.resolved, count, hrun, fun p i op ref hinstr => ⟨_, instrAt?_resolved hinstr, ?_⟩⟩
  exact fun found hfound => finds_resolved_iff hacyclic.rooted hfound

section Examples

/-- A static field `x`. -/
def sharedField : FieldDecl :=
  ⟨"x", "I", Access.staticBit, none⟩

/-- A class `C` that extends `S`, implements `I` and reads its inherited field `x`. -/
def inheritor : ClassDecl where
  name := "C"
  superName := some "S"
  interfaces := ["I"]
  methods := [{
    name := "read"
    descriptor := "()I"
    access := Access.staticBit
    code := [.field Opcode.getStatic ⟨"C", "x", "I"⟩, .simple Opcode.ireturn] }]

/-- The class with the two that may declare the field. -/
def inheriting (inClass inInterface : Bool) : ClassPool :=
  .ofList [inheritor, { name := "S", fields := if inClass then [sharedField] else [] },
    { name := "I", access := Access.interfaceBit, fields := if inInterface then [sharedField] else [] }]

theorem classes_inheriting (inClass inInterface : Bool) : (inheriting inClass inInterface).classes =
    [inheritor, { name := "I", access := Access.interfaceBit, fields := if inInterface then [sharedField] else [] },
      { name := "S", fields := if inClass then [sharedField] else [] }] := by
  cbv

theorem acyclic_inheriting (inClass inInterface : Bool) : (inheriting inClass inInterface).Acyclic := by
  refine acyclic_of_rank (fun name => if name = "C" then 2 else if name = "java/lang/Object" then 0 else 1) ?_
  rw [classes_inheriting]
  cases inClass <;> cases inInterface <;> decide

/-- The field of the super class is found before and after. -/
theorem inheriting_keeps_lookup :
    (inheriting true false).Acyclic ∧
      (inheriting true false).instrAt? ⟨"C", 0⟩ 0 = some (.field Opcode.getStatic ⟨"C", "x", "I"⟩) ∧
      (inheriting true false).Finds "x" "I" "C" (some ("S", sharedField)) ∧
      (inheriting true false).Nearest (·.declaresField Opcode.getStatic ⟨"C", "x", "I"⟩) "C" "S" ∧
      ∃ lines after count,
        ((inheriting true false).resolveFieldOwners : Logged Empty (ClassPool × Nat)).run =
          (lines, .ok (after, count)) ∧
        ∃ owner, after.instrAt? ⟨"C", 0⟩ 0 = some (.field Opcode.getStatic ⟨owner, "x", "I"⟩) ∧
          after.Finds "x" "I" owner (some ("S", sharedField)) := by
  have hc : (inheriting true false).get? "C" = some inheritor := by cbv
  have hs : (inheriting true false).get? "S" = some { name := "S", fields := [sharedField] } := by cbv
  have hi : (inheriting true false).get? "I" = some { name := "I", access := Access.interfaceBit } := by cbv
  have hinterface : (inheriting true false).Finds "x" "I" "I" none := by
    refine .nowhere hi rfl fun sup hsup => ?_
    obtain rfl := List.mem_singleton.1 hsup
    exact .outside (by cbv)
  have hfound : (inheriting true false).Finds "x" "I" "C" (some ("S", sharedField)) :=
    @Finds.inherited _ _ _ _ _ _ ["I"] [] _ hc rfl rfl (by simpa using hinterface) (.own hs rfl)
  have hnearest : (inheriting true false).Nearest (·.declaresField Opcode.getStatic ⟨"C", "x", "I"⟩) "C" "S" :=
    .inherited hc rfl rfl (.own hs rfl)
  have hinstr : (inheriting true false).instrAt? ⟨"C", 0⟩ 0 =
      some (.field Opcode.getStatic ⟨"C", "x", "I"⟩) := by
    cbv
  obtain ⟨lines, after, count, hrun, hall⟩ :=
    resolveFieldOwners_keeps_lookup (ε := Empty) (acyclic_inheriting true false)
  obtain ⟨owner, hafter, hiff⟩ := hall _ _ _ _ hinstr
  exact ⟨acyclic_inheriting true false, hinstr, hfound, hnearest, lines, after, count, hrun, owner, hafter,
    (hiff _ hfound).2 (.inl hnearest)⟩

/-- The field of the interface is not found any more: the instruction names a class outside the pool. -/
theorem inheriting_loses_lookup :
    (inheriting false true).Acyclic ∧
      (inheriting false true).instrAt? ⟨"C", 0⟩ 0 = some (.field Opcode.getStatic ⟨"C", "x", "I"⟩) ∧
      (inheriting false true).Finds "x" "I" "C" (some ("I", sharedField)) ∧
      sharedField.isStatic = Opcode.getStatic.isStaticAccess ∧
      ∃ lines after count,
        ((inheriting false true).resolveFieldOwners : Logged Empty (ClassPool × Nat)).run =
          (lines, .ok (after, count)) ∧
        after.instrAt? ⟨"C", 0⟩ 0 = some (.field Opcode.getStatic ⟨"java/lang/Object", "x", "I"⟩) ∧
        ¬ ∃ found, after.Finds "x" "I" "java/lang/Object" (some found) := by
  have hc : (inheriting false true).get? "C" = some inheritor := by cbv
  have hi : (inheriting false true).get? "I" =
      some { name := "I", access := Access.interfaceBit, fields := [sharedField] } := by
    cbv
  have hfound : (inheriting false true).Finds "x" "I" "C" (some ("I", sharedField)) :=
    @Finds.inherited _ _ _ _ _ _ [] ["S"] _ hc rfl rfl (List.forall_mem_nil _) (.own hi rfl)
  obtain ⟨lines, count, hrun⟩ := run_resolveFieldOwners Empty (inheriting false true)
  refine ⟨acyclic_inheriting false true, by cbv, hfound, by decide, lines, _, count, hrun, by cbv, ?_⟩
  rintro ⟨found, hafter⟩
  exact absurd (hafter.unique (.outside (by cbv))) (Option.some_ne_none found)

end Examples

end ClassPool

end Unscramble
