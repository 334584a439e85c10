/-
Calls and the declarations that they run.  Removing methods without use keeps a declaration if the class that a call
names is the class of the declaration, one above it or one below it.  A declaration that a call reaches only through
a common subtype of the two is lost.
-/
import Mathlib.Data.List.Permutation
import Unscramble.Cleanup.Unused
import Unscramble.Proofs.Hierarchy

namespace Unscramble.ClassPool

variable {pool : ClassPool} {name descriptor : String} {k p : String}

/-- A class of the pool declares the method. -/
def Declares (pool : ClassPool) (name descriptor owner : String) : Prop :=
  ∃ c, pool.get? owner = some c ∧ (c.method? name descriptor).isSome = true

/-- The declaration that runs on an object of a class: that of the class, or else of the nearest super class. -/
inductive Dispatches (pool : ClassPool) (name descriptor : String) : String → String → Prop where
  | own {k : String} : pool.Declares name descriptor k → Dispatches pool name descriptor k k
  | inherited {k sup p : String} {c : ClassDecl} : pool.get? k = some c →
      c.method? name descriptor = none → c.superName = some sup →
      Dispatches pool name descriptor sup p → Dispatches pool name descriptor k p

theorem Dispatches.declares (h : pool.Dispatches name descriptor k p) :
    pool.Declares name descriptor p := by
  induction h with
  | own h => exact h
  | inherited _ _ _ _ ih => exact ih

theorem Dispatches.atOrBelow (h : pool.Dispatches name descriptor k p) : pool.AtOrBelow k p := by
  induction h with
  | own => exact .refl
  | inherited hc _ hsup _ ih => exact ih.head (extends_iff.2 ⟨_, hc, by simp [ClassDecl.supers, hsup]⟩)

/-- One of the classes is the other one, above it or below it. -/
def Related (pool : ClassPool) (owner other : String) : Prop :=
  pool.AtOrBelow owner other ∨ pool.AtOrBelow other owner

/-- The written identity of a method tells its class, its name and its type. -/
def Unambiguous (pool : ClassPool) : Prop :=
  ∀ a ∈ pool.methods, ∀ b ∈ pool.methods, a.1.methodKey a.2 = b.1.methodKey b.2 →
    a.1.name = b.1.name ∧ a.2.name = b.2.name ∧ a.2.descriptor = b.2.descriptor

instance (pool : ClassPool) : Decidable pool.Unambiguous :=
  inferInstanceAs (Decidable (∀ a ∈ pool.methods, ∀ b ∈ pool.methods, _ → _))

/-- A call through a related class reaches a method. -/
theorem isReachable_of_related {called : List String} {owner : String} {c : ClassDecl} {m : MethodDecl}
    (hcalled : (MemberRef.mk owner m.name m.descriptor).methodKey ∈ called)
    (hrelated : pool.Related owner c.name) : pool.isReachable called c m = true := by
  have hthrough : called.contains (MemberRef.mk owner m.name m.descriptor).methodKey = true := by
    simpa using hcalled
  simp only [isReachable, Bool.or_eq_true, List.any_eq_true]
  rcases hrelated with hbelow | habove
  · exact .inr ⟨owner, mem_withSubclasses.2 hbelow, hthrough⟩
  · rcases Relation.reflTransGen_iff_eq_or_transGen.1 habove with rfl | habove
    · exact .inl (.inl (.inr hthrough))
    · exact .inl (.inr ⟨owner, mem_allSupers.2 habove, .inr hthrough⟩)

/-- The pool without the methods that no call can reach. -/
def withoutUnused (pool : ClassPool) : ClassPool :=
  (pool.filterMethods fun c m => !pool.unreachableMethods.contains (c.methodKey m)).1

theorem get?_withoutUnused :
    pool.withoutUnused.get? name = (pool.get? name).map fun c => { c with
      methods := c.methods.filter fun m => !pool.unreachableMethods.contains (c.methodKey m) } :=
  get?_mapMembers _ _

theorem run_removeUnusedMethods (ε : Type) (pool : ClassPool) :
    ∃ lines count, (pool.removeUnusedMethods : Logged ε (ClassPool × Nat)).run =
      (lines, .ok (pool.withoutUnused, count)) :=
  ⟨_, _, rfl⟩

theorem mem_calledMethods {op : Opcode} {ref : MemberRef} {onInterface : Bool} {c : ClassDecl}
    {m : MethodDecl} (hm : (c, m) ∈ pool.methods) (h : .method op ref onInterface ∈ m.code) :
    ref.methodKey ∈ pool.calledMethods := by
  rw [calledMethods, List.mem_filterMap]
  exact ⟨_, List.mem_flatMap.2 ⟨(c, m), hm, h⟩, rfl⟩

/-- A method that is left was there before. -/
theorem exists_of_mem_withoutUnused {c : ClassDecl} {m : MethodDecl}
    (h : (c, m) ∈ pool.withoutUnused.methods) : ∃ c', (c', m) ∈ pool.methods := by
  obtain ⟨hc, hm⟩ := mem_methods.1 h
  obtain ⟨c', hc', rfl⟩ := List.mem_map.1 hc
  exact ⟨c', mem_methods.2 ⟨hc', (List.mem_filter.1 hm).1⟩⟩

/-- A method stays if it can be reached, as can all of its class with its name and type. -/
theorem stays_of_isReachable (hkeys : pool.Unambiguous) {c : ClassDecl} {m : MethodDecl}
    (hm : (c, m) ∈ pool.methods)
    (hreachable : ∀ c' m', c'.name = c.name → m'.name = m.name → m'.descriptor = m.descriptor →
      pool.isReachable pool.calledMethods c' m' = true) :
    (!pool.unreachableMethods.contains (c.methodKey m)) = true := by
  simp only [Bool.not_eq_true', List.contains_eq_mem, decide_eq_false_iff_not]
  intro hunreachable
  obtain ⟨⟨c', m'⟩, hm', hkey⟩ := List.mem_map.1 hunreachable
  obtain ⟨hmethod, hnot⟩ := List.mem_filter.1 hm'
  obtain ⟨hclass, hname, htype⟩ := hkeys (c', m') hmethod (c, m) hm hkey
  simp [hreachable c' m' hclass hname htype] at hnot

/-- A method that can be reached is declared afterwards. -/
theorem declares_withoutUnused (hkeys : pool.Unambiguous) (h : pool.Declares name descriptor p)
    (hreachable : ∀ c m, c.name = p → m.name = name → m.descriptor = descriptor →
      pool.isReachable pool.calledMethods c m = true) :
    pool.withoutUnused.Declares name descriptor p := by
  obtain ⟨c, hc, hdeclares⟩ := h
  obtain ⟨m, hm⟩ := Option.isSome_iff_exists.1 hdeclares
  obtain ⟨hclass, rfl⟩ := get?_eq_some.1 hc
  have hmem := List.mem_of_find?_eq_some hm
  have his : m.name = name ∧ m.descriptor = descriptor := by
    simpa [MethodDecl.is] using List.find?_some hm
  have hstays := stays_of_isReachable hkeys (mem_methods.2 ⟨hclass, hmem⟩) fun c' m' hname hmname htype =>
    hreachable c' m' hname (hmname.trans his.1) (htype.trans his.2)
  refine ⟨_, get?_withoutUnused.trans (congrArg _ hc), ?_⟩
  rw [ClassDecl.method?, List.find?_isSome]
  exact ⟨m, List.mem_filter.2 ⟨hmem, hstays⟩, List.find?_some hm⟩

/-- Removing unused methods keeps the declaration that a call runs on an object of a class, if the object is of the
class that the call names, or else if that class is related to the class of the declaration. -/
theorem removeUnusedMethods_keeps_dispatch {ε : Type} (hkeys : pool.Unambiguous) :
    ∃ lines after count,
      (pool.removeUnusedMethods : Logged ε (ClassPool × Nat)).run = (lines, .ok (after, count)) ∧
      ∀ caller ∈ after.methods, ∀ op ref onInterface, .method op ref onInterface ∈ caller.2.code →
        ∀ k p, pool.AtOrBelow k ref.owner → pool.Dispatches ref.name ref.descriptor k p →
          k = ref.owner ∨ pool.Related ref.owner p → after.Declares ref.name ref.descriptor p := by
  obtain ⟨lines, count, hrun⟩ := run_removeUnusedMethods ε pool
  refine ⟨lines, pool.withoutUnused, count, hrun, ?_⟩
  rintro ⟨c, m⟩ hcaller op ref onInterface hcall k p _ hdispatch hside
  obtain ⟨c', hm⟩ := exists_of_mem_withoutUnused hcaller
  have hrelated : pool.Related ref.owner p := by
    rcases hside with rfl | hrelated
    · exact .inl hdispatch.atOrBelow
    · exact hrelated
  refine declares_withoutUnused hkeys hdispatch.declares ?_
  rintro c m rfl hname htype
  refine isReachable_of_related ?_ hrelated
  rw [hname, htype]
  exact mem_calledMethods hm hcall

section Examples

/-- A class that may declare a method `foo`. -/
def fooClass (name superName : String) (interfaces : List String) (declares : Bool) : ClassDecl where
  name := name
  superName := some superName
  interfaces := interfaces
  methods :=
    if declares then [{ name := "foo", descriptor := "()V", code := [.simple Opcode.vreturn] }] else []

/-- A call of `foo` through the interface `I`. -/
def fooCall : Instr :=
  .method Opcode.invokeInterface ⟨"I", "foo", "()V"⟩ true

/-- What runs at the start and calls `foo` through the interface `I`. -/
def fooStart : MethodDecl where
  name := "<clinit>"
  descriptor := "()V"
  access := Access.staticBit
  code := [fooCall, .simple Opcode.vreturn]

def fooCaller : ClassDecl where
  name := "Main"
  methods := [fooStart]

/-- The super class `P` of `K` implements the interface. -/
def layered : ClassPool :=
  ofList [fooCaller, fooClass "I" "java/lang/Object" [] true, fooClass "P" "java/lang/Object" ["I"] true,
    fooClass "K" "P" [] false]

/-- Only `K` implements the interface, with the method that it inherits from `P`. -/
def bridged : ClassPool :=
  ofList [fooCaller, fooClass "I" "java/lang/Object" [] true, fooClass "P" "java/lang/Object" [] true,
    fooClass "K" "P" ["I"] false]

/-- The call stays in every pool, since what runs at the start is never removed. -/
theorem exists_fooCall (hkeys : pool.Unambiguous) (hmain : pool.get? "Main" = some fooCaller) :
    ∃ caller ∈ pool.withoutUnused.methods, fooCall ∈ caller.2.code := by
  have hmem : (fooCaller, fooStart) ∈ pool.methods :=
    mem_methods.2 ⟨(get?_eq_some.1 hmain).1, List.mem_cons_self⟩
  have hstays := stays_of_isReachable hkeys hmem fun c m _ hname _ => by
    simp [isReachable, MethodDecl.isEntry, hname, fooStart]
  have hafter := get?_eq_some.1 (get?_withoutUnused.trans (congrArg _ hmain))
  exact ⟨(_, fooStart), mem_methods.2 ⟨hafter.1, List.mem_filter.2 ⟨List.mem_cons_self, hstays⟩⟩,
    List.mem_cons_self⟩

/-- A pool in which `K` extends `P`, which alone of the two declares `foo`. -/
theorem dispatches_foo {interfaces interfaces' : List String}
    (hk : pool.get? "K" = some (fooClass "K" "P" interfaces false))
    (hp : pool.get? "P" = some (fooClass "P" "java/lang/Object" interfaces' true)) :
    pool.Dispatches "foo" "()V" "K" "P" :=
  .inherited hk rfl rfl (.own ⟨_, hp, rfl⟩)

theorem layered_keeps_dispatch :
    layered.Unambiguous ∧ layered.AtOrBelow "K" "I" ∧ layered.Dispatches "foo" "()V" "K" "P" ∧
      layered.Related "I" "P" ∧
      ∃ lines after count,
        (layered.removeUnusedMethods : Logged Empty (ClassPool × Nat)).run =
          (lines, .ok (after, count)) ∧
        (∃ caller ∈ after.methods, fooCall ∈ caller.2.code) ∧ after.Declares "foo" "()V" "P" := by
  have hkeys : layered.Unambiguous := of_decide_eq_true (by cbv)
  have hk : layered.get? "K" = some (fooClass "K" "P" [] false) := by cbv
  have hp : layered.get? "P" = some (fooClass "P" "java/lang/Object" ["I"] true) := by cbv
  have hdispatch := dispatches_foo hk hp
  have habove : layered.AtOrBelow "P" "I" := .single (extends_iff.2 ⟨_, hp, by decide⟩)
  have hbelow : layered.AtOrBelow "K" "I" := habove.head (extends_iff.2 ⟨_, hk, by decide⟩)
  obtain ⟨lines, after, count, hrun, hall⟩ := removeUnusedMethods_keeps_dispatch (ε := Empty) hkeys
  obtain rfl : layered.withoutUnused = after := (Prod.mk.inj (Except.ok.inj (Prod.mk.inj hrun).2)).1
  obtain ⟨caller, hmem, hcall⟩ := exists_fooCall hkeys (by cbv)
  exact ⟨hkeys, hbelow, hdispatch, .inr habove, lines, _, count, hrun, ⟨caller, hmem, hcall⟩,
    hall caller hmem _ _ _ hcall _ _ hbelow hdispatch (.inr (.inr habove))⟩

/-- The declaration that the call runs on an object of class `K` is removed. -/
theorem bridged_loses_dispatch :
    bridged.Acyclic ∧ bridged.Unambiguous ∧ bridged.AtOrBelow "K" "I" ∧
      bridged.Dispatches "foo" "()V" "K" "P" ∧
      ∃ lines after count,
        (bridged.removeUnusedMethods : Logged Empty (ClassPool × Nat)).run =
          (lines, .ok (after, count)) ∧
        (∃ caller ∈ after.methods, fooCall ∈ caller.2.code) ∧ ¬ after.Declares "foo" "()V" "P" := by
  have hkeys : bridged.Unambiguous := of_decide_eq_true (by cbv)
  have hk : bridged.get? "K" = some (fooClass "K" "P" ["I"] false) := by cbv
  have hp : bridged.get? "P" = some (fooClass "P" "java/lang/Object" [] true) := by cbv
  have hclasses : bridged.classes = [fooClass "I" "java/lang/Object" [] true, fooClass "K" "P" ["I"] false,
      fooCaller, fooClass "P" "java/lang/Object" [] true] := by cbv
  have hacyclic : bridged.Acyclic := by
    refine acyclic_of_rank
      (fun name => if name = "K" then 2 else if name = "java/lang/Object" then 0 else 1) ?_
    rw [hclasses]
    decide
  obtain ⟨lines, count, hrun⟩ := run_removeUnusedMethods Empty bridged
  refine ⟨hacyclic, hkeys, .single (extends_iff.2 ⟨_, hk, by decide⟩), dispatches_foo hk hp, lines, _, count,
    hrun, exists_fooCall hkeys (by cbv), ?_⟩
  rintro ⟨c, hc, hdeclares⟩
  have hgone : ((bridged.withoutUnused.get? "P").any fun c => (c.method? "foo" "()V").isSome) = false := by
    cbv
  simp [hc, hdeclares] at hgone

end Examples

end Unscramble.ClassPool
