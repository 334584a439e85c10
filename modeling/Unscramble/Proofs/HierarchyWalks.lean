/-
Walks through the hierarchy, pass by pass.  Upwards a walk marks the name found last and goes on with its super types;
downwards it looks up the direct subtypes of one found name after another.  Both end on every pool, cycles included,
and what they find tells after how many passes.  Nothing is found twice, and a class is found below a name exactly where
the name is found above the class.
-/
import Mathlib.Logic.Function.Iterate
import Unscramble.Proofs.Hierarchy
import Unscramble.Total

namespace Unscramble

namespace Graph

variable {α : Type} [DecidableEq α]

/-- One pass over what a walk has visited, the latest first, and what waits to be visited.  A node that was visited is
passed over; another one is visited, and its successors wait in front of the others. -/
def pass (g : Graph α) : List α × List α → List α × List α
  | (seen, []) => (seen, [])
  | (seen, a :: rest) => if seen.contains a then (seen, rest) else (a :: seen, g.next a ++ rest)

/-- How many nodes come to wait when some nodes are visited: all their successors. -/
def fanOut (g : Graph α) (visited : List α) : Nat :=
  total (visited.map fun a => (g.next a).length)

/-- A walk takes one pass for each node that waits, or comes to wait on the way. -/
theorem iterate_pass (g : Graph α) (seen pending : List α) :
    ∃ later, g.walkFrom seen pending = seen.reverse ++ later ∧
      g.pass^[pending.length + g.fanOut later] (seen, pending) = (later.reverse ++ seen, []) := by
  fun_induction g.walkFrom seen pending with
  | case1 seen => exact ⟨[], by simp, rfl⟩
  | case2 seen a rest hold ih =>
      obtain ⟨later, hwalk, hpasses⟩ := ih
      have hpass : g.pass (seen, a :: rest) = (seen, rest) := if_pos hold
      refine ⟨later, hwalk, ?_⟩
      rw [List.length_cons, Nat.succ_add, Function.iterate_succ_apply, hpass]
      exact hpasses
  | case3 seen a rest hnew ih =>
      obtain ⟨later, hwalk, hpasses⟩ := ih
      have hpass : g.pass (seen, a :: rest) = (a :: seen, g.next a ++ rest) := if_neg hnew
      have hcount : (a :: rest).length + g.fanOut (a :: later) =
          (g.next a ++ rest).length + g.fanOut later + 1 := by
        simp only [fanOut, List.length_cons, List.length_append, List.map_cons, total_cons]
        omega
      refine ⟨a :: later, by simp [hwalk], ?_⟩
      rw [hcount, Function.iterate_succ_apply, hpass, hpasses]
      simp

/-- A walk has ended when the nodes at which it starts and all successors of visited nodes were looked at. -/
theorem walk_ends (g : Graph α) (start : List α) :
    g.pass^[start.length + g.fanOut (g.walk start)] ([], start) = ((g.walk start).reverse, []) := by
  obtain ⟨later, hwalk, hpasses⟩ := g.iterate_pass [] start
  have hlater : g.walk start = later := hwalk
  rw [hlater, hpasses, List.append_nil]

end Graph

namespace ClassPool

variable {pool : ClassPool} {name sub : String} {done pending : List String}

/-- One pass of the walk downwards over the names whose subtypes are known and those that wait: the first one that waits
is looked up, and its new direct subtypes wait behind the others. -/
def subsPass (pool : ClassPool) : List String × List String → List String × List String
  | (done, []) => (done, [])
  | (done, name :: rest) => (done ++ [name], rest ++ pool.newSubs (done ++ name :: rest) name)

/-- The walk downwards takes one pass for each name that it finds, those that wait first. -/
theorem iterate_subsPass (pool : ClassPool) (done pending : List String) :
    ∃ more, pool.subsFrom done pending = done ++ pending ++ more ∧
      pool.subsPass^[(pending ++ more).length] (done, pending) = (pool.subsFrom done pending, []) := by
  fun_induction pool.subsFrom done pending with
  | case1 done => exact ⟨[], by simp, rfl⟩
  | case2 done name rest ih =>
      obtain ⟨more, hwalk, hpasses⟩ := ih
      refine ⟨pool.newSubs (done ++ name :: rest) name ++ more, by simp [hwalk], ?_⟩
      rw [List.cons_append, List.length_cons, Function.iterate_succ_apply, ← List.append_assoc]
      exact hpasses

theorem nodup_newSubs (pool : ClassPool) (found : List String) (name : String) : (pool.newSubs found name).Nodup := by
  have hsubs : (pool.directSubs name).Sublist pool.names := List.filter_sublist.map _
  exact (pool.nodup_names.sublist hsubs).filter _

/-- What is found downwards is found once: only new names come to wait. -/
theorem nodup_subsFrom (h : (done ++ pending).Nodup) : (pool.subsFrom done pending).Nodup := by
  fun_induction pool.subsFrom done pending with
  | case1 done => simpa using h
  | case2 done name rest ih =>
      have hdisjoint : (done ++ name :: rest).Disjoint (pool.newSubs (done ++ name :: rest) name) :=
        fun sub hold hnew => (newSubs_mem hnew).2 hold
      apply ih
      have hall := h.append (pool.nodup_newSubs _ name) hdisjoint
      simpa using hall

/-- A name is found below exactly those above which it stands, and below itself. -/
theorem mem_withSubclasses_iff : sub ∈ pool.withSubclasses name ↔ sub = name ∨ name ∈ pool.allSupers sub := by
  rw [mem_withSubclasses, mem_allSupers]
  constructor
  · intro h
    cases h using Relation.ReflTransGen.head_induction_on with
    | refl => exact .inl rfl
    | head hdirect hrest => exact .inr (.head' hdirect hrest)
  · rintro (rfl | hbelow)
    · exact .refl
    · exact hbelow.to_reflTransGen

theorem mem_names_of_mem_allSupers (h : name ∈ pool.allSupers sub) : sub ∈ pool.names := by
  obtain ⟨_, hdirect, -⟩ := Relation.TransGen.head'_iff.1 (mem_allSupers.1 h)
  exact hdirect.mem_names

/-- The walks upwards and downwards end on every pool, and they are dual.  Upwards exactly the names are found to which
one step or more lead from a class to a direct super type, each of them once; downwards the class itself and then
exactly the other classes of the pool above which it is found, each of them once. -/
theorem walks_dual (pool : ClassPool) (name : String) :
    (pool.superGraph.pass^[(pool.directSupers name).length + pool.superGraph.fanOut (pool.allSupers name)]
        ([], (pool.directSupers name).reverse) = ((pool.allSupers name).reverse, []) ∧
      (pool.allSupers name).Nodup ∧ ∀ sup, sup ∈ pool.allSupers name ↔ pool.Below name sup) ∧
    (pool.subsPass^[(pool.withSubclasses name).length] ([], [name]) = (pool.withSubclasses name, []) ∧
      ∃ others, pool.withSubclasses name = name :: others ∧ (name :: others).Nodup ∧
        ∀ sub, sub ∈ others ↔ sub ∈ pool.names ∧ sub ≠ name ∧ name ∈ pool.allSupers sub) := by
  have hup := pool.superGraph.walk_ends (pool.directSupers name).reverse
  rw [List.length_reverse] at hup
  obtain ⟨others, hwalk, hdown⟩ := pool.iterate_subsPass [] [name]
  have hothers : pool.withSubclasses name = name :: others := hwalk
  have hnodup : (name :: others).Nodup := hothers ▸ nodup_subsFrom (List.nodup_singleton name)
  refine ⟨⟨hup, Graph.nodup_walk _, fun sup => mem_allSupers⟩, ?_, others, hothers, hnodup, fun sub => ?_⟩
  · rw [hothers]
    exact hdown.trans (congrArg (·, []) hothers)
  · have hmem : sub ∈ name :: others ↔ sub = name ∨ name ∈ pool.allSupers sub := hothers ▸ mem_withSubclasses_iff
    constructor
    · intro hsub
      have hne : sub ≠ name := fun heq => (List.nodup_cons.1 hnodup).1 (heq ▸ hsub)
      have habove := (hmem.1 (List.mem_cons_of_mem name hsub)).resolve_left hne
      exact ⟨mem_names_of_mem_allSupers habove, hne, habove⟩
    · rintro ⟨-, hne, habove⟩
      exact (List.mem_cons.1 (hmem.2 (.inr habove))).resolve_left hne

end ClassPool

end Unscramble
