/-
The hierarchy of a pool as a relation between names.  The walks upwards and downwards find exactly the transitive
super types and subtypes, and each is the converse of the other.
-/
import Unscramble.Class.Hierarchy
import Unscramble.Proofs.Walks

namespace Unscramble.ClassPool

variable {pool : ClassPool} {name sub sup : String} {c : ClassDecl}

theorem get?_eq_some : pool.get? name = some c ↔ c ∈ pool.classes ∧ c.name = name := by
  constructor
  · intro h
    exact ⟨List.mem_of_find?_eq_some h, by simpa using List.find?_some h⟩
  · rintro ⟨hc, rfl⟩
    -- names are in strict order, so no two classes share one
    have hunique : ∀ l : List ClassDecl, (l.map ClassDecl.name).Pairwise (· < ·) → c ∈ l →
        l.find? (·.name == c.name) = some c := by
      intro l hordered hmem
      induction l with
      | nil => cases hmem
      | cons first rest ih =>
          rw [List.map_cons, List.pairwise_cons] at hordered
          rcases List.mem_cons.1 hmem with rfl | hmem
          · simp
          · have hlt := hordered.1 c.name (List.mem_map_of_mem hmem)
            have hne : (first.name == c.name) = false := by
              simpa using fun heq : first.name = c.name => String.lt_irrefl _ (heq ▸ hlt)
            rw [List.find?_cons, hne]
            exact ih hordered.2 hmem
    exact hunique pool.classes pool.ordered hc

theorem nodup_names (pool : ClassPool) : pool.names.Nodup := by
  apply pool.ordered.imp
  rintro a b hlt rfl
  exact String.lt_irrefl a hlt

theorem get?_map (f : ClassDecl → ClassDecl) (keeps : ∀ c, (f c).name = c.name) :
    (pool.map f keeps).get? name = (pool.get? name).map f := by
  rw [get?, map, List.find?_map]
  congr 2
  funext c
  exact congrArg (· == name) (keeps c)

theorem get?_mapMembers (fields : ClassDecl → List FieldDecl) (methods : ClassDecl → List MethodDecl) :
    (pool.mapMembers fields methods).get? name =
      (pool.get? name).map fun c => { c with fields := fields c, methods := methods c } :=
  get?_map _ _

theorem get?_mapMethods (f : ClassDecl → MethodDecl → MethodDecl) :
    (pool.mapMethods f).get? name = (pool.get? name).map fun c => { c with methods := c.methods.map (f c) } :=
  get?_map _ _

theorem mem_methods {m : MethodDecl} : (c, m) ∈ pool.methods ↔ c ∈ pool.classes ∧ m ∈ c.methods := by
  simp [methods]

/-- The class `sub` of the pool extends or implements `sup` directly. -/
def Extends (pool : ClassPool) (sub sup : String) : Prop :=
  sup ∈ pool.directSupers sub

theorem extends_iff : pool.Extends sub sup ↔ ∃ c, pool.get? sub = some c ∧ sup ∈ c.supers := by
  rw [Extends, directSupers]
  cases pool.get? sub with
  | none => simp
  | some c => simp

theorem Extends.mem_names (h : pool.Extends sub sup) : sub ∈ pool.names := by
  obtain ⟨c, hc, _⟩ := extends_iff.1 h
  obtain ⟨hmem, rfl⟩ := get?_eq_some.1 hc
  exact List.mem_map_of_mem hmem

theorem mem_directSubs : sub ∈ pool.directSubs sup ↔ pool.Extends sub sup := by
  rw [extends_iff, directSubs, List.mem_map]
  constructor
  · rintro ⟨c, hc, rfl⟩
    obtain ⟨hmem, hsup⟩ := List.mem_filter.1 hc
    exact ⟨c, get?_eq_some.2 ⟨hmem, rfl⟩, by simpa using hsup⟩
  · rintro ⟨c, hc, hsup⟩
    obtain ⟨hmem, rfl⟩ := get?_eq_some.1 hc
    exact ⟨c, List.mem_filter.2 ⟨hmem, by simpa using hsup⟩, rfl⟩

/-- The class `sub` of the pool is a subtype of `sup`, directly or through others. -/
abbrev Below (pool : ClassPool) : String → String → Prop :=
  Relation.TransGen pool.Extends

/-- The same class or a subtype of it. -/
abbrev AtOrBelow (pool : ClassPool) : String → String → Prop :=
  Relation.ReflTransGen pool.Extends

/-- No class is a subtype of itself. -/
def Acyclic (pool : ClassPool) : Prop :=
  ∀ name, ¬ pool.Below name name

theorem acyclic_of_rank (rank : String → Nat)
    (h : ∀ c ∈ pool.classes, ∀ sup ∈ c.supers, rank sup < rank c.name) : pool.Acyclic := by
  have hlt : ∀ sub sup, pool.Below sub sup → rank sup < rank sub := by
    intro sub sup hbelow
    have hdirect : ∀ sub sup, pool.Extends sub sup → rank sup < rank sub := by
      intro sub sup hextends
      obtain ⟨c, hc, hsup⟩ := extends_iff.1 hextends
      obtain ⟨hmem, rfl⟩ := get?_eq_some.1 hc
      exact h c hmem sup hsup
    induction hbelow with
    | single hextends => exact hdirect _ _ hextends
    | tail _ hextends ih => exact Nat.lt_trans (hdirect _ _ hextends) ih
  exact fun name hbelow => Nat.lt_irrefl _ (hlt name name hbelow)

section Counting

variable {step : String → String → Prop}

open Classical in
/-- The number of classes of the pool to which steps between names lead from a name, the name itself counted. -/
noncomputable def reachCount (pool : ClassPool) (step : String → String → Prop) (name : String) : Nat :=
  pool.names.countP fun other => decide (Relation.ReflTransGen step name other)

theorem reachCount_le_size (pool : ClassPool) (step : String → String → Prop) (name : String) :
    pool.reachCount step name ≤ pool.size := by
  simpa [reachCount, size, names] using List.countP_le_length (l := pool.names)

/-- Steps that never lead back leave fewer classes to reach. -/
theorem reachCount_lt (hacyclic : ∀ name, ¬ Relation.TransGen step name name) (hmem : sub ∈ pool.names)
    (h : step sub sup) : pool.reachCount step sup < pool.reachCount step sub := by
  classical
  refine countP_lt_countP (a := sub) ?_ hmem (decide_eq_true .refl) (decide_eq_false fun hback => ?_)
  · intro other _ hother
    exact decide_eq_true ((of_decide_eq_true hother).head h)
  · exact hacyclic sub (.head' h hback)

end Counting

open Classical in
/-- The number of classes of the pool at or above a name. -/
noncomputable def height (pool : ClassPool) (name : String) : Nat :=
  pool.names.countP fun sup => decide (pool.AtOrBelow name sup)

theorem height_le_size (pool : ClassPool) (name : String) : pool.height name ≤ pool.size :=
  reachCount_le_size pool pool.Extends name

/-- Without cycles super types are higher up. -/
theorem Acyclic.height_lt (hacyclic : pool.Acyclic) (h : pool.Extends sub sup) :
    pool.height sup < pool.height sub :=
  reachCount_lt hacyclic h.mem_names h

/-- The walk upwards finds the transitive super types. -/
theorem mem_allSupers : sup ∈ pool.allSupers sub ↔ pool.Below sub sup := by
  have hstep : pool.superGraph.Step = pool.Extends := by
    funext a b
    simp [Graph.Step, superGraph, Extends]
  rw [allSupers, Graph.mem_walk, hstep]
  refine Iff.trans ?_ Relation.TransGen.head'_iff.symm
  simp [Extends]

/-- All that is found downwards was found before or lies below what waits. -/
theorem atOrBelow_of_mem_subsFrom {done pending : List String} (h : sub ∈ pool.subsFrom done pending) :
    sub ∈ done ∨ ∃ sup ∈ pending, pool.AtOrBelow sub sup := by
  fun_induction pool.subsFrom done pending with
  | case1 done => exact .inl h
  | case2 done name rest ih =>
      rcases ih h with hdone | ⟨sup, hsup, hbelow⟩
      · rcases List.mem_append.1 hdone with hdone | hname
        · exact .inl hdone
        · obtain rfl := List.mem_singleton.1 hname
          exact .inr ⟨sub, List.mem_cons_self, .refl⟩
      · rcases List.mem_append.1 hsup with hrest | hnew
        · exact .inr ⟨sup, List.mem_cons_of_mem name hrest, hbelow⟩
        · have hdirect := mem_directSubs.1 (List.mem_filter.1 hnew).1
          exact .inr ⟨name, List.mem_cons_self, hbelow.tail hdirect⟩

/-- What waits is found, and with a class its direct subtypes. -/
theorem subsFrom_closed {done pending : List String}
    (hdone : ∀ sup ∈ done, ∀ sub, pool.Extends sub sup → sub ∈ done ∨ sub ∈ pending) :
    (∀ a, a ∈ done ∨ a ∈ pending → a ∈ pool.subsFrom done pending) ∧
      ∀ sup ∈ pool.subsFrom done pending, ∀ sub, pool.Extends sub sup →
        sub ∈ pool.subsFrom done pending := by
  fun_induction pool.subsFrom done pending with
  | case1 done => exact ⟨by simp, fun sup hsup sub hsub => (hdone sup hsup sub hsub).resolve_right (by simp)⟩
  | case2 done name rest ih =>
      -- a direct subtype of `name` is new, or it was found before
      have hrest := ih fun sup hsup sub hsub => by
        by_cases hfound : sub ∈ done ++ name :: rest
        · simp only [List.mem_append, List.mem_cons] at hfound ⊢
          rcases hfound with h | rfl | h
          · exact .inl (.inl h)
          · exact .inl (.inr (.inl rfl))
          · exact .inr (.inl h)
        · rcases List.mem_append.1 hsup with hsup | hsup
          · exact absurd (List.mem_append.2 (hdone sup hsup sub hsub)) hfound
          · obtain rfl := List.mem_singleton.1 hsup
            refine .inr (List.mem_append_right rest (List.mem_filter.2 ⟨mem_directSubs.2 hsub, ?_⟩))
            simpa using hfound
      refine ⟨fun a ha => hrest.1 a ?_, hrest.2⟩
      simp only [List.mem_append, List.mem_cons] at ha ⊢
      rcases ha with h | rfl | h
      · exact .inl (.inl h)
      · exact .inl (.inr (.inl rfl))
      · exact .inr (.inl h)

/-- The walk downwards finds the class and its transitive subtypes. -/
theorem mem_withSubclasses : sub ∈ pool.withSubclasses sup ↔ pool.AtOrBelow sub sup := by
  constructor
  · intro h
    rcases atOrBelow_of_mem_subsFrom h with hdone | ⟨other, hother, hbelow⟩
    · cases hdone
    · exact List.mem_singleton.1 hother ▸ hbelow
  · intro h
    have hwalk : (∀ a, a ∈ [] ∨ a ∈ [sup] → a ∈ pool.withSubclasses sup) ∧
        ∀ a ∈ pool.withSubclasses sup, ∀ b, pool.Extends b a → b ∈ pool.withSubclasses sup :=
      subsFrom_closed nofun
    induction h using Relation.ReflTransGen.head_induction_on with
    | refl => exact hwalk.1 sup (.inr List.mem_cons_self)
    | head hdirect _ ih => exact hwalk.2 _ ih _ hdirect

end Unscramble.ClassPool
