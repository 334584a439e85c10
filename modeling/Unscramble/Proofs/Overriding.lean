/-
Overriding under new names.  A method gets its new name at its highest declaration and shares it with all subtypes.
Where a class sees one highest declaration only, a method keeps the name of the one that it overrides.  A class below
two unrelated declarations follows the later one and parts from the other.
-/
import Unscramble.Proofs.Dispatch
import Unscramble.Proofs.NewNames

namespace Unscramble

namespace ClassPool

variable {pool : ClassPool} {name descriptor : String} {sub sup : String} {c : ClassDecl} {m : MethodDecl}

theorem Declares.of_mem (hc : c ∈ pool.classes) (hm : m ∈ c.methods) :
    pool.Declares m.name m.descriptor c.name := by
  refine ⟨c, get?_eq_some.2 ⟨hc, rfl⟩, ?_⟩
  rw [ClassDecl.method?, List.find?_isSome]
  exact ⟨m, hm, by simp [MethodDecl.is]⟩

/-- A highest declaration of a method: no super type declares it. -/
def IsTop (pool : ClassPool) (name descriptor top : String) : Prop :=
  pool.Declares name descriptor top ∧ ∀ sup, pool.Below top sup → ¬ pool.Declares name descriptor sup

theorem Acyclic.height_lt_of_below (hacyclic : pool.Acyclic) (h : pool.Below sub sup) :
    pool.height sup < pool.height sub := by
  induction h with
  | single hextends => exact hacyclic.height_lt hextends
  | tail _ hextends ih => exact Nat.lt_trans (hacyclic.height_lt hextends) ih

/-- Without cycles every declaration has a highest one at or above it. -/
theorem exists_isTop (hacyclic : pool.Acyclic) (h : pool.Declares name descriptor sub) :
    ∃ top, pool.AtOrBelow sub top ∧ pool.IsTop name descriptor top := by
  induction hheight : pool.height sub using Nat.strongRecOn generalizing sub with
  | ind height ih =>
      by_cases htop : ∀ sup, pool.Below sub sup → ¬ pool.Declares name descriptor sup
      · exact ⟨sub, .refl, h, htop⟩
      · obtain ⟨sup, hbelow, hdeclares⟩ : ∃ sup, pool.Below sub sup ∧ pool.Declares name descriptor sup := by
          simpa using htop
        have hlt := hacyclic.height_lt_of_below hbelow
        obtain ⟨top, habove, htop⟩ := ih (pool.height sup) (hheight ▸ hlt) hdeclares rfl
        exact ⟨top, hbelow.to_reflTransGen.trans habove, htop⟩

end ClassPool

namespace Renaming

variable {pool : ClassPool} {sup sub : ClassDecl} {m n : MethodDecl}

/-- The name and the type of every method are as a class file has them. -/
def PlainMethods (pool : ClassPool) : Prop :=
  ∀ entry ∈ pool.methods, isPlainMethod entry.2.name entry.2.descriptor = true

instance (pool : ClassPool) : Decidable (PlainMethods pool) :=
  inferInstanceAs (Decidable (∀ entry ∈ pool.methods, _))

/-- A class that declares a method which is given a new name higher up sees no other highest declaration of it. -/
def SingleTop (pool : ClassPool) : Prop :=
  ∀ entry ∈ renamedMethods pool, ∀ owner, pool.Declares entry.2.name entry.2.descriptor owner →
    pool.AtOrBelow owner entry.1.name → ∀ top, pool.AtOrBelow owner top →
      pool.IsTop entry.2.name entry.2.descriptor top → top = entry.1.name

/-- A method that overrides another one gets no new name of its own. -/
theorem renamesMethod_eq_false {top : String} (hbelow : pool.Below sub.name top)
    (hdeclares : pool.Declares n.name n.descriptor top) : renamesMethod pool sub n = false := by
  obtain ⟨c, hc, hmethod⟩ := hdeclares
  have hsuper : (anySuper pool sub.name fun ancestor => (ancestor.method? n.name n.descriptor).isSome) = true :=
    List.any_eq_true.2 ⟨top, ClassPool.mem_allSupers.2 hbelow, by simpa [hc] using hmethod⟩
  simp [renamesMethod, hsuper]

theorem signature_inj (hm : isPlainMethod m.name m.descriptor = true) (hn : isPlainMethod n.name n.descriptor = true)
    (h : m.name ++ m.descriptor = n.name ++ n.descriptor) : m.name = n.name ∧ m.descriptor = n.descriptor := by
  have howner : isPlainOwner "" = true := by decide
  have hkeys : (MemberRef.mk "" m.name m.descriptor).methodKey = (MemberRef.mk "" n.name n.descriptor).methodKey := by
    rw [methodKey_eq, methodKey_eq, h]
  exact (MemberRef.mk.inj (methodKey_inj howner howner hm hn hkeys)).2

/-- A method that overrides another one finds the same new name. -/
theorem lookup_overriding (hacyclic : pool.Acyclic) (hplain : PlainClasses pool) (hmethods : PlainMethods pool)
    (hsingle : SingleTop pool) (hm : (sup, m) ∈ pool.methods) (hsub : sub ∈ pool.classes)
    (hbelow : pool.Below sub.name sup.name) (hdeclares : pool.Declares m.name m.descriptor sub.name) :
    (ofPool pool).methods.lookup (MemberRef.mk sup.name m.name m.descriptor).methodKey =
      (ofPool pool).methods.lookup (MemberRef.mk sub.name m.name m.descriptor).methodKey := by
  obtain ⟨hsup, hmem⟩ := ClassPool.mem_methods.1 hm
  rw [methods_ofPool, methodKey_eq, methodKey_eq]
  refine lookup_numbered_congr ?_
  rintro ⟨top, decl⟩ hrenamed
  have hdecl := (List.mem_filter.1 hrenamed).1
  have htop := (ClassPool.mem_methods.1 hdecl).1
  rw [methodKeys, mem_keysBelow hplain hsup htop, mem_keysBelow hplain hsub htop]
  refine and_congr_left fun htext => ⟨fun habove => hbelow.to_reflTransGen.trans habove, fun habove => ?_⟩
  -- the highest declaration above the overridden method is seen from below too, so it is the renamed one
  obtain ⟨hname, htype⟩ := signature_inj (hmethods _ hm) (hmethods _ hdecl) htext
  obtain ⟨highest, hreach, hhighest⟩ := ClassPool.exists_isTop hacyclic (ClassPool.Declares.of_mem hsup hmem)
  have hsame : highest = top.name :=
    hsingle _ hrenamed sub.name (hname ▸ htype ▸ hdeclares) habove highest
      (hbelow.to_reflTransGen.trans hreach) (hname ▸ htype ▸ hhighest)
  exact hsame ▸ hreach

/-- Methods of a class and of one above it get the same name and type exactly if they had the same name and type. -/
theorem method_overriding_iff (hacyclic : pool.Acyclic) (hfresh : Fresh pool) (hplain : PlainClasses pool)
    (hmethods : PlainMethods pool) (hsingle : SingleTop pool) (hm : (sup, m) ∈ pool.methods)
    (hn : (sub, n) ∈ pool.methods) (hbelow : pool.Below sub.name sup.name) :
    (((ofPool pool).method sup.name m).name = ((ofPool pool).method sub.name n).name ∧
        ((ofPool pool).method sup.name m).descriptor = ((ofPool pool).method sub.name n).descriptor) ↔
      m.name = n.name ∧ m.descriptor = n.descriptor := by
  constructor
  · rintro ⟨hname, htype⟩
    exact method_inj hfresh hplain hm hn hname htype
  · rintro ⟨hname, htype⟩
    obtain ⟨hsub, hmem⟩ := ClassPool.mem_methods.1 hn
    have hdeclares : pool.Declares m.name m.descriptor sub.name := by
      rw [hname, htype]
      exact ClassPool.Declares.of_mem hsub hmem
    have hlookup := lookup_overriding hacyclic hplain hmethods hsingle hm hsub hbelow hdeclares
    simp only [method, methodRef, hlookup, ← hname, ← htype, and_self]

/-- Renaming keeps overriding: where a class that declares a renamed method sees one highest declaration of it and no
new name is already in use, a method of a class and one of a class above it have the same name and type afterwards
exactly if they had before. -/
theorem rename_keeps_overriding {ε : Type} (hacyclic : pool.Acyclic) (hfresh : Fresh pool)
    (hplain : PlainClasses pool) (hmethods : PlainMethods pool) (hsingle : SingleTop pool) :
    ∃ lines after count,
      (pool.rename : Logged ε (ClassPool × Nat)).run = (lines, .ok (after, count)) ∧
      ∀ sup ∈ pool.classes, ∀ sub ∈ pool.classes, pool.Below sub.name sup.name →
        ∃ sup' sub', after.get? ((ofPool pool).className sup.name) = some sup' ∧
          after.get? ((ofPool pool).className sub.name) = some sub' ∧
          sup'.methods.length = sup.methods.length ∧ sub'.methods.length = sub.methods.length ∧
          ∀ (i j : Nat) (m n m' n' : MethodDecl), sup.methods[i]? = some m → sub.methods[j]? = some n →
            sup'.methods[i]? = some m' → sub'.methods[j]? = some n' →
            (m'.name = n'.name ∧ m'.descriptor = n'.descriptor ↔ m.name = n.name ∧ m.descriptor = n.descriptor) := by
  obtain ⟨lines, count, hrun⟩ := run_rename ε pool
  refine ⟨lines, _, count, hrun, ?_⟩
  intro sup hsup sub hsub hbelow
  refine ⟨_, _, get?_pool hfresh hsup, get?_pool hfresh hsub, by simp [classDecl], by simp [classDecl], ?_⟩
  intro i j m n m' n' hm hn hm' hn'
  simp only [classDecl, List.getElem?_map, hm, hn, Option.map_some, Option.some.injEq] at hm' hn'
  subst hm' hn'
  exact method_overriding_iff hacyclic hfresh hplain hmethods hsingle
    (ClassPool.mem_methods.2 ⟨hsup, List.mem_of_getElem? hm⟩)
    (ClassPool.mem_methods.2 ⟨hsub, List.mem_of_getElem? hn⟩) hbelow

section Examples

/-- A method with a short name. -/
def shortMethod : MethodDecl := { name := "a", descriptor := "()V" }

/-- A class that declares the short method. -/
def shortClass (name : String) (interfaces : List String) : ClassDecl :=
  { name, interfaces, methods := [shortMethod] }

theorem className_kept {r : Renaming} {name : String} (h : r.classes = []) (hname : name.toList.head? ≠ some '[') :
    r.className name = name := by
  rw [className_plain hname, h]
  rfl

/-- The method is declared in an interface, and again two steps below it. -/
def stacked : ClassPool :=
  ClassPool.ofList [shortClass "Top" [], { name := "Middle", interfaces := ["Top"] }, shortClass "Low" ["Middle"]]

/-- The method is declared in two interfaces, and again in a class below both. -/
def diamond : ClassPool :=
  ClassPool.ofList [shortClass "Left" [], shortClass "Right" [], shortClass "Both" ["Left", "Right"]]

theorem classes_stacked : stacked.classes =
    [shortClass "Low" ["Middle"], { name := "Middle", interfaces := ["Top"] }, shortClass "Top" []] := by
  decide

theorem classes_diamond : diamond.classes =
    [shortClass "Both" ["Left", "Right"], shortClass "Left" [], shortClass "Right" []] := by
  decide

theorem below_stacked : stacked.Below "Low" "Top" := by
  have hlow : stacked.get? "Low" = some (shortClass "Low" ["Middle"]) := by decide
  have hmiddle : stacked.get? "Middle" = some { name := "Middle", interfaces := ["Top"] } := by decide
  exact .head (ClassPool.extends_iff.2 ⟨_, hlow, by decide⟩)
    (.single (ClassPool.extends_iff.2 ⟨_, hmiddle, by decide⟩))

theorem below_diamond : diamond.Below "Both" "Left" := by
  have hboth : diamond.get? "Both" = some (shortClass "Both" ["Left", "Right"]) := by decide
  exact .single (ClassPool.extends_iff.2 ⟨_, hboth, by decide⟩)

theorem declares_stacked : stacked.Declares "a" "()V" "Top" :=
  .of_mem (m := shortMethod) (c := shortClass "Top" []) (by simp [classes_stacked]) (by decide)

theorem declares_diamond : diamond.Declares "a" "()V" "Left" :=
  .of_mem (m := shortMethod) (c := shortClass "Left" []) (by simp [classes_diamond]) (by decide)

theorem renamedMethods_stacked : renamedMethods stacked = [(shortClass "Top" [], shortMethod)] := by
  have hmethods : stacked.methods =
      [(shortClass "Low" ["Middle"], shortMethod), (shortClass "Top" [], shortMethod)] := by decide
  have hlow : renamesMethod stacked (shortClass "Low" ["Middle"]) shortMethod = false :=
    renamesMethod_eq_false below_stacked declares_stacked
  have htop : renamesMethod stacked (shortClass "Top" []) shortMethod = true := by
    rw [renamesMethod_eq (by decide)]
    cbv
  simp [renamedMethods, hmethods, hlow, htop]

theorem renamedMethods_diamond :
    renamedMethods diamond = [(shortClass "Left" [], shortMethod), (shortClass "Right" [], shortMethod)] := by
  have hmethods : diamond.methods = [(shortClass "Both" ["Left", "Right"], shortMethod),
      (shortClass "Left" [], shortMethod), (shortClass "Right" [], shortMethod)] := by
    decide
  have hboth : renamesMethod diamond (shortClass "Both" ["Left", "Right"]) shortMethod = false :=
    renamesMethod_eq_false below_diamond declares_diamond
  have hleft : renamesMethod diamond (shortClass "Left" []) shortMethod = true := by
    rw [renamesMethod_eq (by decide)]
    cbv
  have hright : renamesMethod diamond (shortClass "Right" []) shortMethod = true := by
    rw [renamesMethod_eq (by decide)]
    cbv
  simp [renamedMethods, hmethods, hboth, hleft, hright]

theorem ofPool_stacked : ofPool stacked =
    ⟨[], [("Low.a()V", "method1"), ("Middle.a()V", "method1"), ("Top.a()V", "method1")], []⟩ := by
  have hfields : renamedFields stacked = [] := by
    rw [renamedFields, classes_stacked]
    rfl
  have hbelow : stacked.withSubclasses (shortClass "Top" []).name = ["Top", "Middle", "Low"] := by cbv
  rw [ofPool, renamedMethods_stacked, hfields]
  simp only [List.zipIdx_cons, List.zipIdx_nil, List.flatMap_cons, List.flatMap_nil, hbelow]
  decide

theorem ofPool_diamond : ofPool diamond =
    ⟨[], [("Both.a()V", "method2"), ("Right.a()V", "method2"), ("Both.a()V", "method1"), ("Left.a()V", "method1")],
      []⟩ := by
  have hfields : renamedFields diamond = [] := by
    rw [renamedFields, classes_diamond]
    rfl
  have hleft : diamond.withSubclasses (shortClass "Left" []).name = ["Left", "Both"] := by cbv
  have hright : diamond.withSubclasses (shortClass "Right" []).name = ["Right", "Both"] := by cbv
  rw [ofPool, renamedMethods_diamond, hfields]
  simp only [List.zipIdx_cons, List.zipIdx_nil, List.flatMap_cons, List.flatMap_nil, hleft, hright]
  decide

theorem acyclic_diamond : diamond.Acyclic := by
  refine ClassPool.acyclic_of_rank
    (fun name => if name = "Both" then 2 else if name = "java/lang/Object" then 0 else 1) ?_
  rw [classes_diamond]
  decide

theorem acyclic_stacked : stacked.Acyclic := by
  refine ClassPool.acyclic_of_rank
    (fun name => if name = "Low" then 3 else if name = "Middle" then 2 else if name = "Top" then 1 else 0) ?_
  rw [classes_stacked]
  decide

theorem singleTop_stacked : SingleTop stacked := by
  rintro entry hentry _ _ _ top - ⟨⟨c, hc, hdeclares⟩, hhighest⟩
  obtain rfl : entry = (shortClass "Top" [], shortMethod) := by simpa [renamedMethods_stacked] using hentry
  obtain ⟨hmem, rfl⟩ := ClassPool.get?_eq_some.1 hc
  rw [classes_stacked] at hmem
  simp only [List.mem_cons, List.not_mem_nil, or_false] at hmem
  rcases hmem with rfl | rfl | rfl
  · exact absurd declares_stacked (hhighest "Top" below_stacked)
  · simp [ClassDecl.method?] at hdeclares
  · rfl

theorem stacked_keeps_overriding :
    stacked.Acyclic ∧ Fresh stacked ∧ PlainClasses stacked ∧ PlainMethods stacked ∧ SingleTop stacked ∧
      stacked.Below "Low" "Top" ∧ ∃ lines after count,
        (stacked.rename : Logged Empty (ClassPool × Nat)).run = (lines, .ok (after, count)) ∧
        ∃ top low m n, after.get? "Top" = some top ∧ after.get? "Low" = some low ∧
          top.methods = [m] ∧ low.methods = [n] ∧ m.name = n.name ∧ m.descriptor = n.descriptor := by
  have hfresh : Fresh stacked := by
    constructor <;> rw [ofPool_stacked, classes_stacked] <;> decide
  have hplain : PlainClasses stacked := of_decide_eq_true (by decide)
  have hmethods : PlainMethods stacked := of_decide_eq_true (by decide)
  have hclasses : (ofPool stacked).classes = [] := by rw [ofPool_stacked]
  obtain ⟨lines, after, count, hrun, hall⟩ :=
    rename_keeps_overriding (ε := Empty) acyclic_stacked hfresh hplain hmethods singleTop_stacked
  obtain ⟨top, low, htop, hlow, htops, hlows, hpairs⟩ := hall (shortClass "Top" []) (by simp [classes_stacked])
    (shortClass "Low" ["Middle"]) (by simp [classes_stacked]) below_stacked
  rw [className_kept hclasses (by decide)] at htop hlow
  obtain ⟨m, hm⟩ := List.length_eq_one_iff.1 htops
  obtain ⟨n, hn⟩ := List.length_eq_one_iff.1 hlows
  obtain ⟨hname, htype⟩ := (hpairs 0 0 shortMethod shortMethod m n rfl rfl (by simp [hm]) (by simp [hn])).2 ⟨rfl, rfl⟩
  exact ⟨acyclic_stacked, hfresh, hplain, hmethods, singleTop_stacked, below_stacked, lines, after, count, hrun, top,
    low, m, n, htop, hlow, hm, hn, hname, htype⟩

/-- A class below two declarations gets the new name of one of them, which the other one does not have. -/
theorem diamond_parts_overriding :
    diamond.Acyclic ∧ Fresh diamond ∧ diamond.Below "Both" "Left" ∧
      diamond.Declares "a" "()V" "Left" ∧ diamond.Declares "a" "()V" "Both" ∧ ∃ lines after count,
        (diamond.rename : Logged Empty (ClassPool × Nat)).run = (lines, .ok (after, count)) ∧
        ∃ left both, after.get? "Left" = some left ∧ after.get? "Both" = some both ∧
          left.methodPairs = [("method1", "()V")] ∧ both.methodPairs = [("method2", "()V")] := by
  have hfresh : Fresh diamond := by
    constructor <;> rw [ofPool_diamond, classes_diamond] <;> decide
  have hleft : diamond.get? "Left" = some (shortClass "Left" []) := by decide
  have hboth : diamond.get? "Both" = some (shortClass "Both" ["Left", "Right"]) := by decide
  have hclasses : (ofPool diamond).classes = [] := by rw [ofPool_diamond]
  have htype : (ofPool diamond).descriptor "()V" = "()V" := by
    rw [ofPool_diamond]
    decide +kernel
  have hleftName : (ofPool diamond).methods.lookup (MemberRef.mk "Left" "a" "()V").methodKey = some "method1" := by
    rw [ofPool_diamond]
    decide
  have hbothName : (ofPool diamond).methods.lookup (MemberRef.mk "Both" "a" "()V").methodKey = some "method2" := by
    rw [ofPool_diamond]
    decide
  have hleft' := get?_pool hfresh (ClassPool.get?_eq_some.1 hleft).1
  have hboth' := get?_pool hfresh (ClassPool.get?_eq_some.1 hboth).1
  rw [className_kept hclasses (by decide)] at hleft' hboth'
  obtain ⟨lines, count, hrun⟩ := run_rename Empty diamond
  refine ⟨acyclic_diamond, hfresh, below_diamond, declares_diamond, ⟨_, hboth, by decide⟩, lines, _, count, hrun, _, _,
    hleft', hboth', ?_, ?_⟩
  · simp [ClassDecl.methodPairs, classDecl, shortClass, shortMethod, method, methodRef, htype, hleftName]
  · simp [ClassDecl.methodPairs, classDecl, shortClass, shortMethod, method, methodRef, htype, hbothName]

end Examples

end Renaming

end Unscramble
