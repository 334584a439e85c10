/-
Methods without use.  A method goes exactly if its class declares its name and type without any use for them: it is
no entry of the program, no call names it through its class or one above or below, and no class of the library above
declares it.  A search that goes through super types and subtypes level by level finds the same uses, since it tests
every name that it meets and follows each name once; so it ends on cyclic hierarchies, too.
-/
import Unscramble.Proofs.Dispatch
import Unscramble.Proofs.TrailingInts

namespace Unscramble

namespace Graph

variable {α : Type} [DecidableEq α]

/-- The nodes of a level that are met for the first time, each of them once. -/
def firstMet (seen : List α) : (level : List α) → List α
  | [] => []
  | a :: rest => if seen.contains a then firstMet seen rest else a :: firstMet (a :: seen) rest

theorem mem_firstMet {seen level : List α} {a : α} : a ∈ firstMet seen level ↔ a ∈ level ∧ a ∉ seen := by
  induction level generalizing seen with
  | nil => simp [firstMet]
  | cons b rest ih =>
      rw [firstMet]
      by_cases hb : seen.contains b = true
      · rw [if_pos hb, ih, List.mem_cons]
        refine and_congr_left fun ha => (or_iff_right ?_).symm
        rintro rfl
        exact ha (List.contains_iff_mem.1 hb)
      · rw [if_neg hb, List.mem_cons, ih, List.mem_cons, List.mem_cons, not_or]
        have hb : b ∉ seen := fun hmem => hb (List.contains_iff_mem.2 hmem)
        constructor
        · rintro (rfl | ⟨ha, -, hseen⟩)
          · exact ⟨.inl rfl, hb⟩
          · exact ⟨.inr ha, hseen⟩
        · rintro ⟨rfl | ha, hseen⟩
          · exact .inl rfl
          · by_cases hab : a = b
            · exact .inl hab
            · exact .inr ⟨ha, hab, hseen⟩

/-- Whether a search that goes level by level finds a node with a property.  All of a level is tested; what leads to
the next level are its nodes that are met for the first time. -/
def searchLevels (g : Graph α) (found : α → Bool) (seen level : List α) : Bool :=
  match level with
  | [] => false
  | a :: rest =>
      (a :: rest).any found ||
        g.searchLevels found (seen ++ firstMet seen (a :: rest)) ((firstMet seen (a :: rest)).flatMap g.next)
termination_by (unseen g.nodes seen, level.length)
decreasing_by
  by_cases hnode : ∃ b ∈ firstMet seen (a :: rest), b ∈ g.nodes
  · obtain ⟨b, hb, hnode⟩ := hnode
    exact Prod.Lex.left _ _ (unseen_append_lt hnode (mem_firstMet.1 hb).2 hb)
  · have hnext : (firstMet seen (a :: rest)).flatMap g.next = [] :=
      List.flatMap_eq_nil_iff.2 fun b hb => g.next_outside b fun hmem => hnode ⟨b, hb, hmem⟩
    rw [hnext]
    rcases Nat.lt_or_eq_of_le (unseen_append_le g.nodes seen (firstMet seen (a :: rest))) with h | h
    · exact Prod.Lex.left _ _ h
    · rw [h]
      exact Prod.Lex.right _ (by simp)

variable {g : Graph α} {found : α → Bool} {seen level : List α}

/-- What is found can be reached from the level. -/
theorem reaches_of_searchLevels (h : g.searchLevels found seen level = true) :
    ∃ a ∈ level, ∃ b, Relation.ReflTransGen g.Step a b ∧ found b = true := by
  fun_induction g.searchLevels found seen level with
  | case1 => cases h
  | case2 seen a rest ih =>
      rcases Bool.or_eq_true_iff.1 h with htest | hlater
      · obtain ⟨b, hb, hfound⟩ := List.any_eq_true.1 htest
        exact ⟨b, hb, b, .refl, hfound⟩
      · obtain ⟨c, hc, b, hreach, hfound⟩ := ih hlater
        obtain ⟨first, hfirst, hnext⟩ := List.mem_flatMap.1 hc
        exact ⟨first, (mem_firstMet.1 hfirst).1, b, hreach.head hnext, hfound⟩

/-- A search that finds nothing has met, with the level, all that follows it.  The invariant is that what was seen was
tested and that its successors were seen, too, or are in the level. -/
theorem closed_of_searchLevels (h : g.searchLevels found seen level = false)
    (hseen : ∀ a ∈ seen, found a = false ∧ ∀ b ∈ g.next a, b ∈ seen ∨ b ∈ level) :
    ∃ met : α → Prop, (∀ a, a ∈ seen ∨ a ∈ level → met a) ∧ (∀ a, met a → found a = false) ∧
      ∀ a, met a → ∀ b ∈ g.next a, met b := by
  fun_induction g.searchLevels found seen level with
  | case1 seen =>
      refine ⟨(· ∈ seen), fun a ha => ha.resolve_right List.not_mem_nil, fun a ha => (hseen a ha).1, ?_⟩
      exact fun a ha b hb => ((hseen a ha).2 b hb).resolve_right List.not_mem_nil
  | case2 seen a rest ih =>
      obtain ⟨htest, hlater⟩ := Bool.or_eq_false_iff.1 h
      have htest : ∀ b ∈ a :: rest, found b = false := by simpa using htest
      have hmet : ∀ b, b ∈ seen ∨ b ∈ a :: rest → b ∈ seen ++ firstMet seen (a :: rest) := by
        intro b hb
        by_cases hold : b ∈ seen
        · exact List.mem_append_left _ hold
        · exact List.mem_append_right _ (mem_firstMet.2 ⟨hb.resolve_left hold, hold⟩)
      obtain ⟨met, hstart, hfound, hclosed⟩ := ih hlater fun b hb => by
        rcases List.mem_append.1 hb with hold | hnew
        · exact ⟨(hseen b hold).1, fun c hc => .inl (hmet c ((hseen b hold).2 c hc))⟩
        · exact ⟨htest b (mem_firstMet.1 hnew).1, fun c hc => .inr (List.mem_flatMap.2 ⟨b, hnew, hc⟩)⟩
      exact ⟨met, fun b hb => hstart b (.inl (hmet b hb)), hfound, hclosed⟩

/-- A search level by level finds what can be reached from where it starts. -/
theorem searchLevels_iff : g.searchLevels found [] level = true ↔
    ∃ a ∈ level, ∃ b, Relation.ReflTransGen g.Step a b ∧ found b = true := by
  refine ⟨reaches_of_searchLevels, ?_⟩
  rintro ⟨a, ha, b, hreach, hb⟩
  by_contra hnone
  obtain ⟨met, hstart, hfound, hclosed⟩ := closed_of_searchLevels (Bool.eq_false_of_not_eq_true hnone) nofun
  have hmet : ∀ c, Relation.ReflTransGen g.Step a c → met c := by
    intro c hreach
    induction hreach with
    | refl => exact hstart a (.inr ha)
    | tail _ hstep ih => exact hclosed _ ih _ hstep
  exact absurd (hb.symm.trans (hfound b (hmet b hreach))) nofun

end Graph

namespace ClassPool

variable {pool after : ClassPool} {c : ClassDecl} {m : MethodDecl}

section Search

/-- The step from a class to its direct subtypes. -/
def subGraph (pool : ClassPool) : Graph String where
  nodes := pool.classes.flatMap ClassDecl.supers
  next := pool.directSubs
  next_outside name hname := by
    refine List.eq_nil_iff_forall_not_mem.2 fun sub hsub => hname ?_
    obtain ⟨c, hc, hsup⟩ := extends_iff.1 (mem_directSubs.1 hsub)
    exact List.mem_flatMap.2 ⟨c, (get?_eq_some.1 hc).1, hsup⟩

/-- Whether a use of a method is found by searches upwards and downwards that go level by level. -/
def isFoundUsed (pool : ClassPool) (called : List String) (c : ClassDecl) (m : MethodDecl) : Bool :=
  let calledThrough (owner : String) : Bool :=
    called.contains (MemberRef.mk owner m.name m.descriptor).methodKey
  m.isEntry || calledThrough c.name ||
    pool.superGraph.searchLevels
      (fun owner => Library.declares owner m.name m.descriptor || calledThrough owner) []
      (pool.directSupers c.name) ||
    pool.subGraph.searchLevels calledThrough [] (pool.directSubs c.name)

theorem step_superGraph : pool.superGraph.Step = pool.Extends := by
  funext a b
  simp [Graph.Step, superGraph, Extends]

theorem step_subGraph : pool.subGraph.Step = Function.swap pool.Extends := by
  funext a b
  exact propext mem_directSubs

/-- The search upwards tests all transitive super types. -/
theorem searchLevels_superGraph {found : String → Bool} {name : String} :
    pool.superGraph.searchLevels found [] (pool.directSupers name) = (pool.allSupers name).any found := by
  rw [Bool.eq_iff_iff, Graph.searchLevels_iff, step_superGraph, List.any_eq_true]
  constructor
  · rintro ⟨sup, hsup, other, hreach, hfound⟩
    exact ⟨other, mem_allSupers.2 (.head' hsup hreach), hfound⟩
  · rintro ⟨other, hother, hfound⟩
    obtain ⟨sup, hsup, hreach⟩ := Relation.TransGen.head'_iff.1 (mem_allSupers.1 hother)
    exact ⟨sup, hsup, other, hreach, hfound⟩

/-- The search downwards tests all transitive subtypes. -/
theorem searchLevels_subGraph {found : String → Bool} {name : String} :
    pool.subGraph.searchLevels found [] (pool.directSubs name) = true ↔ ∃ sub, pool.Below sub name ∧ found sub = true := by
  rw [Graph.searchLevels_iff, step_subGraph]
  constructor
  · rintro ⟨sub, hsub, other, hreach, hfound⟩
    exact ⟨other, .tail' (Relation.reflTransGen_swap.1 hreach) (mem_directSubs.1 hsub), hfound⟩
  · rintro ⟨other, hbelow, hfound⟩
    obtain ⟨sub, hreach, hsub⟩ := Relation.TransGen.tail'_iff.1 hbelow
    exact ⟨sub, mem_directSubs.2 hsub, other, Relation.reflTransGen_swap.2 hreach, hfound⟩

/-- The searches level by level agree with the walks. -/
theorem isFoundUsed_eq (pool : ClassPool) (called : List String) (c : ClassDecl) (m : MethodDecl) :
    pool.isFoundUsed called c m = pool.isReachable called c m := by
  have hbelow : ∀ found : String → Bool, (pool.withSubclasses c.name).any found = true ↔
      found c.name = true ∨ ∃ sub, pool.Below sub c.name ∧ found sub = true := by
    intro found
    simp only [List.any_eq_true, mem_withSubclasses]
    constructor
    · rintro ⟨sub, hsub, hfound⟩
      rcases Relation.reflTransGen_iff_eq_or_transGen.1 hsub with rfl | hsub
      · exact .inl hfound
      · exact .inr ⟨sub, hsub, hfound⟩
    · rintro (hfound | ⟨sub, hsub, hfound⟩)
      · exact ⟨c.name, .refl, hfound⟩
      · exact ⟨sub, hsub.to_reflTransGen, hfound⟩
  rw [Bool.eq_iff_iff, isFoundUsed, isReachable, searchLevels_superGraph]
  simp only [Bool.or_eq_true, searchLevels_subGraph, hbelow]
  tauto

end Search

section Uses

/-- A call instruction of the pool names the method. -/
def Calls (pool : ClassPool) (ref : MemberRef) : Prop :=
  ∃ a ∈ pool.methods, ref ∈ TrailingInt.callRefs a.2.code

/-- A method for which the program has no use: it is no entry, no call names it through its class or one above or below,
and no library class above its class declares it. -/
structure Unused (pool : ClassPool) (c : ClassDecl) (m : MethodDecl) : Prop where
  not_init : m.name ≠ "<init>"
  not_clinit : m.name ≠ "<clinit>"
  not_main : m.isMain = false
  not_called : ∀ owner, pool.Related owner c.name → ¬ pool.Calls ⟨owner, m.name, m.descriptor⟩
  not_library : ∀ sup, pool.Below c.name sup → Library.declares sup m.name m.descriptor = false

/-- The method of the class is still declared. -/
def Keeps (after : ClassPool) (c : ClassDecl) (m : MethodDecl) : Prop :=
  ∃ c', after.get? c.name = some c' ∧ m ∈ c'.methods

/-- The names of classes and methods, in declarations and in calls, are as class files have them, so that a written
identity tells its parts. -/
def PlainNames (pool : ClassPool) : Prop :=
  ∀ c ∈ pool.classes, isPlainOwner c.name = true ∧ ∀ m ∈ c.methods,
    isPlainMethod m.name m.descriptor = true ∧ ∀ ref ∈ TrailingInt.callRefs m.code,
      isPlainOwner ref.owner = true ∧ isPlainMethod ref.name ref.descriptor = true

instance (pool : ClassPool) : Decidable pool.PlainNames :=
  inferInstanceAs (Decidable (∀ c ∈ pool.classes, _ ∧ _))

theorem PlainNames.unambiguous (hnames : pool.PlainNames) : pool.Unambiguous := by
  rintro ⟨c, m⟩ hm ⟨c', m'⟩ hm' hkey
  obtain ⟨hc, hm⟩ := mem_methods.1 hm
  obtain ⟨hc', hm'⟩ := mem_methods.1 hm'
  exact MemberRef.mk.inj (methodKey_inj (hnames c hc).1 (hnames c' hc').1 ((hnames c hc).2 m hm).1
    ((hnames c' hc').2 m' hm').1 hkey)

theorem mem_calledMethods_iff {key : String} :
    key ∈ pool.calledMethods ↔ ∃ ref, pool.Calls ref ∧ ref.methodKey = key := by
  simp only [calledMethods, instrs, Calls, TrailingInt.callRefs, List.mem_filterMap, List.mem_flatMap]
  constructor
  · rintro ⟨instr, ⟨a, ha, hinstr⟩, hkey⟩
    cases instr with
    | method op ref onInterface =>
        obtain rfl := Option.some.inj hkey
        exact ⟨ref, ⟨a, ha, _, hinstr, rfl⟩, rfl⟩
    | _ => cases hkey
  · rintro ⟨ref, ⟨a, ha, instr, hinstr, href⟩, rfl⟩
    obtain ⟨op, onInterface, rfl⟩ := TrailingInt.exists_eq_method href
    exact ⟨_, ⟨a, ha, hinstr⟩, rfl⟩

/-- What no search reaches is unused. -/
theorem unused_of_isReachable_eq_false (h : pool.isReachable pool.calledMethods c m = false) : pool.Unused c m := by
  have hcalled : ∀ owner, pool.Related owner c.name → ¬ pool.Calls ⟨owner, m.name, m.descriptor⟩ := by
    intro owner hrelated hcalls
    have hreachable := isReachable_of_related (mem_calledMethods_iff.2 ⟨_, hcalls, rfl⟩) hrelated
    exact absurd (hreachable.symm.trans h) nofun
  simp only [isReachable, MethodDecl.isEntry, Bool.or_eq_false_iff, beq_eq_false_iff_ne] at h
  obtain ⟨⟨⟨⟨⟨hinit, hclinit⟩, hmain⟩, -⟩, habove⟩, -⟩ := h
  refine ⟨hinit, hclinit, hmain, hcalled, fun sup hsup => ?_⟩
  have htest := (List.any_eq_false.1 habove) sup (mem_allSupers.2 hsup)
  rw [Bool.not_eq_true, Bool.or_eq_false_iff] at htest
  exact htest.1

/-- A call of an identity names the method through the class, if the name of the class is as it should be. -/
theorem calls_of_mem_calledMethods (hnames : pool.PlainNames) {owner : String} (howner : isPlainOwner owner = true)
    (hmethod : isPlainMethod m.name m.descriptor = true)
    (h : (MemberRef.mk owner m.name m.descriptor).methodKey ∈ pool.calledMethods) :
    pool.Calls ⟨owner, m.name, m.descriptor⟩ := by
  obtain ⟨ref, ⟨a, ha, href⟩, hkey⟩ := mem_calledMethods_iff.1 h
  obtain ⟨hc, hm⟩ := mem_methods.1 ha
  obtain ⟨hrefOwner, hrefMethod⟩ := ((hnames a.1 hc).2 a.2 hm).2 ref href
  have hnamed : ref = ⟨owner, m.name, m.descriptor⟩ := methodKey_inj hrefOwner howner hrefMethod hmethod hkey
  exact ⟨a, ha, hnamed ▸ href⟩

/-- What is unused is reached by no search, if the names of super types are as they should be, too. -/
theorem isReachable_eq_false_of_unused (hnames : pool.PlainNames)
    (hsupers : ∀ c ∈ pool.classes, ∀ sup ∈ c.supers, isPlainOwner sup = true) (hc : c ∈ pool.classes)
    (hm : m ∈ c.methods) (h : pool.Unused c m) : pool.isReachable pool.calledMethods c m = false := by
  obtain ⟨hplain, hmethods⟩ := hnames c hc
  have hcalled : ∀ owner, isPlainOwner owner = true → pool.Related owner c.name →
      (MemberRef.mk owner m.name m.descriptor).methodKey ∉ pool.calledMethods := fun owner howner hrelated hmem =>
    h.not_called owner hrelated (calls_of_mem_calledMethods hnames howner (hmethods m hm).1 hmem)
  have hown := hcalled c.name hplain (.inl .refl)
  have habove : ∀ sup, pool.Below c.name sup →
      (MemberRef.mk sup m.name m.descriptor).methodKey ∉ pool.calledMethods := by
    intro sup hsup
    obtain ⟨sub, -, hextends⟩ := Relation.TransGen.tail'_iff.1 hsup
    obtain ⟨d, hd, hmem⟩ := extends_iff.1 hextends
    exact hcalled sup (hsupers d (get?_eq_some.1 hd).1 sup hmem) (.inr hsup.to_reflTransGen)
  have hbelow : ∀ sub, pool.AtOrBelow sub c.name →
      (MemberRef.mk sub m.name m.descriptor).methodKey ∉ pool.calledMethods := by
    intro sub hsub
    rcases Relation.ReflTransGen.cases_head hsub with rfl | ⟨sup, hextends, -⟩
    · exact hown
    · obtain ⟨d, hd, -⟩ := extends_iff.1 hextends
      obtain ⟨hmem, rfl⟩ := get?_eq_some.1 hd
      exact hcalled d.name (hnames d hmem).1 (.inl hsub)
  simp only [isReachable, MethodDecl.isEntry, Bool.or_eq_false_iff, beq_eq_false_iff_ne, List.any_eq_false,
    mem_allSupers, mem_withSubclasses, List.contains_eq_mem, decide_eq_false_iff_not, decide_eq_true_eq,
    Bool.not_eq_true]
  exact ⟨⟨⟨⟨⟨h.not_init, h.not_clinit⟩, h.not_main⟩, hown⟩, fun sup hsup => ⟨h.not_library sup hsup, habove sup hsup⟩⟩,
    hbelow⟩

end Uses

section Removal

theorem keeps_withoutUnused_iff (hc : c ∈ pool.classes) (hm : m ∈ c.methods) :
    pool.withoutUnused.Keeps c m ↔ c.methodKey m ∉ pool.unreachableMethods := by
  have hafter := get?_withoutUnused.trans (congrArg _ (get?_eq_some.2 ⟨hc, rfl⟩))
  rw [Keeps, hafter]
  simp [hm]

/-- Exactly the identities of methods that no search reaches go. -/
theorem mem_unreachableMethods (hnames : pool.PlainNames) (hc : c ∈ pool.classes) (hm : m ∈ c.methods) :
    c.methodKey m ∈ pool.unreachableMethods ↔ ∃ twin ∈ c.methods, twin.name = m.name ∧
      twin.descriptor = m.descriptor ∧ pool.isReachable pool.calledMethods c twin = false := by
  simp only [unreachableMethods, List.mem_map, List.mem_filter, Bool.not_eq_true']
  constructor
  · rintro ⟨⟨c', twin⟩, ⟨htwin, hunreached⟩, hkey⟩
    obtain ⟨hclass, hname, htype⟩ := hnames.unambiguous (c', twin) htwin (c, m) (mem_methods.2 ⟨hc, hm⟩) hkey
    obtain ⟨hc', htwin⟩ := mem_methods.1 htwin
    obtain rfl : c' = c :=
      Option.some.inj ((get?_eq_some.2 ⟨hc', hclass⟩).symm.trans (get?_eq_some.2 ⟨hc, rfl⟩))
    exact ⟨twin, htwin, hname, htype, hunreached⟩
  · rintro ⟨twin, htwin, hname, htype, hunreached⟩
    exact ⟨(c, twin), ⟨mem_methods.2 ⟨hc, htwin⟩, hunreached⟩, by simp only [ClassDecl.methodKey, hname, htype]⟩

/-- Removing unused methods keeps every declaration that a call may reach through its own class, a super type or a
subtype.  What goes has a namesake in its class, most often itself, that is unused; and what is unused goes.  Whether a
method is used is what searches level by level find. -/
theorem removeUnusedMethods_spares_called {ε : Type} (hnames : pool.PlainNames) :
    ∃ lines after count,
      (pool.removeUnusedMethods : Logged ε (ClassPool × Nat)).run = (lines, .ok (after, count)) ∧
      (∀ ref, pool.Calls ref → ∀ c ∈ pool.classes, pool.Related ref.owner c.name → ∀ m ∈ c.methods,
        m.name = ref.name → m.descriptor = ref.descriptor → after.Keeps c m) ∧
      (∀ c ∈ pool.classes, ∀ m ∈ c.methods, ¬ after.Keeps c m →
        ∃ twin ∈ c.methods, twin.name = m.name ∧ twin.descriptor = m.descriptor ∧ pool.Unused c twin) ∧
      ((∀ c ∈ pool.classes, ∀ sup ∈ c.supers, isPlainOwner sup = true) →
        ∀ c ∈ pool.classes, ∀ m ∈ c.methods, pool.Unused c m → ¬ after.Keeps c m) ∧
      ∀ c m, pool.isReachable pool.calledMethods c m = pool.isFoundUsed pool.calledMethods c m := by
  obtain ⟨lines, count, hrun⟩ := run_removeUnusedMethods ε pool
  refine ⟨lines, pool.withoutUnused, count, hrun, ?_, ?_, ?_, fun c m => (isFoundUsed_eq pool _ c m).symm⟩
  · intro ref hcalls c hc hrelated m hm hname htype
    rw [keeps_withoutUnused_iff hc hm, mem_unreachableMethods hnames hc hm]
    rintro ⟨twin, -, hsameName, hsameType, hunreached⟩
    refine (unused_of_isReachable_eq_false hunreached).not_called ref.owner hrelated ?_
    rwa [hsameName, hsameType, hname, htype]
  · intro c hc m hm hgone
    rw [keeps_withoutUnused_iff hc hm, not_not, mem_unreachableMethods hnames hc hm] at hgone
    obtain ⟨twin, htwin, hname, htype, hunreached⟩ := hgone
    exact ⟨twin, htwin, hname, htype, unused_of_isReachable_eq_false hunreached⟩
  · intro hsupers c hc m hm hunused
    rw [keeps_withoutUnused_iff hc hm, not_not, mem_unreachableMethods hnames hc hm]
    exact ⟨m, hm, rfl, rfl, isReachable_eq_false_of_unused hnames hsupers hc hm hunused⟩

end Removal

section Examples

/-- A method without calls. -/
def idleMethod : MethodDecl where
  name := "bar"
  descriptor := "()V"
  code := [.simple Opcode.vreturn]

def idleClass : ClassDecl where
  name := "Idle"
  methods := [idleMethod]

/-- Two classes that extend each other; only one of them is named by the call. -/
def circular : ClassPool :=
  ofList [fooCaller, fooClass "I" "K" [] true, fooClass "K" "I" [] true, idleClass]

theorem classes_circular :
    circular.classes = [fooClass "I" "K" [] true, idleClass, fooClass "K" "I" [] true, fooCaller] := by
  cbv

theorem circular_spares_called :
    circular.PlainNames ∧ circular.Below "I" "I" ∧
      ∃ lines after count,
        (circular.removeUnusedMethods : Logged Empty (ClassPool × Nat)).run = (lines, .ok (after, count)) ∧
        (∀ m ∈ (fooClass "K" "I" [] true).methods, after.Keeps (fooClass "K" "I" [] true) m) ∧
        ¬ after.Keeps idleClass idleMethod := by
  have hnames : circular.PlainNames := by
    rw [PlainNames, classes_circular]
    decide
  have hi : circular.get? "I" = some (fooClass "I" "K" [] true) := by cbv
  have hk : circular.get? "K" = some (fooClass "K" "I" [] true) := by cbv
  have hidle : circular.get? "Idle" = some idleClass := by cbv
  have hup : circular.Extends "I" "K" := extends_iff.2 ⟨_, hi, by decide⟩
  have hdown : circular.Extends "K" "I" := extends_iff.2 ⟨_, hk, by decide⟩
  obtain ⟨lines, after, count, hrun, hspares, -, hgoes, -⟩ := removeUnusedMethods_spares_called (ε := Empty) hnames
  refine ⟨hnames, .tail (.single hup) hdown, lines, after, count, hrun, ?_, ?_⟩
  · have hcalls : circular.Calls ⟨"I", "foo", "()V"⟩ := by
      rw [Calls, methods, classes_circular]
      decide
    intro m hm
    obtain rfl := List.mem_singleton.1 hm
    exact hspares _ hcalls _ (get?_eq_some.1 hk).1 (.inl (.single hup)) _ hm rfl rfl
  · refine hgoes ?_ _ (get?_eq_some.1 hidle).1 _ List.mem_cons_self ⟨by decide, by decide, by decide, ?_, ?_⟩
    · rw [classes_circular]
      decide
    · rintro owner - ⟨a, ha, href⟩
      rw [methods, classes_circular] at ha
      revert a
      simp [fooClass, idleClass, idleMethod, fooCaller, fooStart, fooCall, TrailingInt.callRefs, TrailingInt.callRef?]
    · intro sup hsup
      have habove : circular.allSupers "Idle" = ["java/lang/Object"] := by cbv
      obtain rfl := List.mem_singleton.1 (habove ▸ mem_allSupers.2 hsup)
      decide

/-- A method with which a program can be started, unless its access flags are others. -/
def mainMethod (access : Access) : MethodDecl where
  name := "main"
  descriptor := "([Ljava/lang/String;)V"
  access := access
  code := [.simple Opcode.vreturn]

/-- A class with two methods of one name and type, of which one starts a program. -/
def doubled : ClassDecl where
  name := "A"
  methods := [mainMethod (Access.publicBit ||| Access.staticBit), mainMethod 0]

/-- The two methods have one written identity, and both go. -/
theorem doubled_loses_main :
    (ofList [doubled]).PlainNames ∧
      (mainMethod (Access.publicBit ||| Access.staticBit)).isMain = true ∧
      ∃ lines after count,
        ((ofList [doubled]).removeUnusedMethods : Logged Empty (ClassPool × Nat)).run =
          (lines, .ok (after, count)) ∧
        doubled ∈ (ofList [doubled]).classes ∧
        ¬ after.Keeps doubled (mainMethod (Access.publicBit ||| Access.staticBit)) := by
  have hclasses : (ofList [doubled]).classes = [doubled] := by cbv
  obtain ⟨lines, count, hrun⟩ := run_removeUnusedMethods Empty (ofList [doubled])
  refine ⟨by rw [PlainNames, hclasses]; decide, by decide, lines, _, count, hrun, by rw [hclasses]; decide, ?_⟩
  rintro ⟨c, hc, hm⟩
  have hgone : ((ofList [doubled]).withoutUnused.get? doubled.name).map ClassDecl.methods = some [] := by cbv
  rw [hc, Option.map_some, Option.some.injEq] at hgone
  rw [hgone] at hm
  exact List.not_mem_nil hm

end Examples

end ClassPool

end Unscramble
