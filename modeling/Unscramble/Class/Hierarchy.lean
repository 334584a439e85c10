/-
Transitive super types and subtypes of a class, by walks that end on every pool, whether or not its
hierarchy has cycles.
-/
import Unscramble.Class.Pool
import Unscramble.Walk

namespace Unscramble.ClassPool

theorem directSupers_eq_nil {pool : ClassPool} {name : String} (h : name ∉ pool.names) :
    pool.directSupers name = [] := by
  have hget : pool.get? name = none := by
    simp only [get?, List.find?_eq_none, beq_iff_eq]
    intro c hc heq
    exact h (heq ▸ List.mem_map_of_mem hc)
  simp [directSupers, hget]

/-- The step from a class to its direct super types, the last one first. -/
def superGraph (pool : ClassPool) : Graph String where
  nodes := pool.names
  next name := (pool.directSupers name).reverse
  next_outside name h := by simp [directSupers_eq_nil h]

/-- Every transitive super type of a class, names outside the pool included, in the order in which
a walk meets them that always continues from the name found last. -/
def allSupers (pool : ClassPool) (name : String) : List String :=
  pool.superGraph.walk (pool.directSupers name).reverse

/-- The direct subtypes that are not yet found. -/
def newSubs (pool : ClassPool) (found : List String) (name : String) : List String :=
  (pool.directSubs name).filter fun sub => !found.contains sub

theorem newSubs_mem {pool : ClassPool} {found : List String} {name sub : String}
    (h : sub ∈ pool.newSubs found name) : sub ∈ pool.names ∧ sub ∉ found := by
  simp only [newSubs, List.mem_filter, directSubs, List.mem_map] at h
  obtain ⟨⟨c, ⟨hc, _⟩, rfl⟩, hfound⟩ := h
  exact ⟨List.mem_map_of_mem hc, by simpa using hfound⟩

/-- Continues the walk downwards: `done` are the names whose subtypes are known and `pending` those
found whose subtypes are still to be looked up, both in the order of discovery. -/
def subsFrom (pool : ClassPool) (done pending : List String) : List String :=
  match pending with
  | [] => done
  | name :: rest =>
      subsFrom pool (done ++ [name]) (rest ++ pool.newSubs (done ++ name :: rest) name)
termination_by (unseen pool.names (done ++ pending), pending.length)
decreasing_by
  have hsplit : done ++ [name] ++ (rest ++ pool.newSubs (done ++ name :: rest) name) =
      done ++ name :: rest ++ pool.newSubs (done ++ name :: rest) name := by simp
  rw [hsplit]
  cases hnew : pool.newSubs (done ++ name :: rest) name with
  | nil =>
      simp only [List.append_nil]
      exact Prod.Lex.right _ (by simp)
  | cons sub more =>
      have hsub : sub ∈ pool.newSubs (done ++ name :: rest) name := by simp [hnew]
      obtain ⟨hpool, hfound⟩ := newSubs_mem hsub
      exact Prod.Lex.left _ _ (unseen_append_lt hpool hfound (by simp))

/-- The class itself followed by every class of the pool that extends or implements it, directly or
through others, those nearer to it first. -/
def withSubclasses (pool : ClassPool) (name : String) : List String :=
  pool.subsFrom [] [name]

end Unscramble.ClassPool
