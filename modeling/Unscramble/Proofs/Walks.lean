/-
What a walk visits: exactly the nodes that can be reached from where it starts, each of them once.  The invariant is
that every successor of a visited node was visited or waits.
-/
import Mathlib.Data.List.Nodup
import Mathlib.Logic.Relation
import Unscramble.Walk

namespace Unscramble.Graph

variable {α : Type} {g : Graph α}

/-- The graph leads from one node to another directly. -/
def Step (g : Graph α) (a b : α) : Prop :=
  b ∈ g.next a

variable [DecidableEq α] {seen pending : List α}

/-- Visited nodes are found again in the result, in the order in which they were visited. -/
theorem exists_walkFrom_eq (g : Graph α) (seen pending : List α) :
    ∃ later, g.walkFrom seen pending = seen.reverse ++ later := by
  fun_induction g.walkFrom seen pending with
  | case1 seen => exact ⟨[], by simp⟩
  | case2 seen a rest _ ih => exact ih
  | case3 seen a rest _ ih =>
      obtain ⟨later, hlater⟩ := ih
      exact ⟨a :: later, by simp [hlater]⟩

theorem nodup_walkFrom (hseen : seen.Nodup) : (g.walkFrom seen pending).Nodup := by
  fun_induction g.walkFrom seen pending with
  | case1 seen => exact List.nodup_reverse.2 hseen
  | case2 seen a rest _ ih => exact ih hseen
  | case3 seen a rest hnew ih => exact ih (List.nodup_cons.2 ⟨by simpa using hnew, hseen⟩)

/-- All that is visited was visited before or can be reached from what waits. -/
theorem reaches_of_mem_walkFrom {b : α} (h : b ∈ g.walkFrom seen pending) :
    b ∈ seen ∨ ∃ a ∈ pending, Relation.ReflTransGen g.Step a b := by
  fun_induction g.walkFrom seen pending with
  | case1 seen => exact .inl (List.mem_reverse.1 h)
  | case2 seen a rest _ ih =>
      rcases ih h with hseen | ⟨c, hc, hreach⟩
      · exact .inl hseen
      · exact .inr ⟨c, List.mem_cons_of_mem a hc, hreach⟩
  | case3 seen a rest _ ih =>
      rcases ih h with hseen | ⟨c, hc, hreach⟩
      · rcases List.mem_cons.1 hseen with rfl | hseen
        · exact .inr ⟨b, List.mem_cons_self, .refl⟩
        · exact .inl hseen
      · rcases List.mem_append.1 hc with hnext | hrest
        · exact .inr ⟨a, List.mem_cons_self, hreach.head hnext⟩
        · exact .inr ⟨c, List.mem_cons_of_mem a hrest, hreach⟩

/-- What waits is visited, and with a node all that follows it. -/
theorem walkFrom_closed (hseen : ∀ a ∈ seen, ∀ b ∈ g.next a, b ∈ seen ∨ b ∈ pending) :
    (∀ a ∈ pending, a ∈ g.walkFrom seen pending) ∧
      ∀ a ∈ g.walkFrom seen pending, ∀ b ∈ g.next a, b ∈ g.walkFrom seen pending := by
  fun_induction g.walkFrom seen pending with
  | case1 seen =>
      refine ⟨by simp, fun a ha b hb => ?_⟩
      rcases hseen a (List.mem_reverse.1 ha) b hb with hb | hb
      · exact List.mem_reverse.2 hb
      · cases hb
  | case2 seen a rest hold ih =>
      have hmem : a ∈ seen := by simpa using hold
      have hrest := ih fun c hc b hb => by
        rcases hseen c hc b hb with hb | hb
        · exact .inl hb
        · rcases List.mem_cons.1 hb with rfl | hb
          · exact .inl hmem
          · exact .inr hb
      refine ⟨fun c hc => ?_, hrest.2⟩
      rcases List.mem_cons.1 hc with rfl | hc
      · obtain ⟨later, hlater⟩ := exists_walkFrom_eq g seen rest
        rw [hlater]
        exact List.mem_append_left later (List.mem_reverse.2 hmem)
      · exact hrest.1 c hc
  | case3 seen a rest _ ih =>
      have hrest := ih fun c hc b hb => by
        rcases List.mem_cons.1 hc with rfl | hc
        · exact .inr (List.mem_append_left rest hb)
        · rcases hseen c hc b hb with hb | hb
          · exact .inl (List.mem_cons_of_mem a hb)
          · rcases List.mem_cons.1 hb with rfl | hb
            · exact .inl List.mem_cons_self
            · exact .inr (List.mem_append_right _ hb)
      refine ⟨fun c hc => ?_, hrest.2⟩
      rcases List.mem_cons.1 hc with rfl | hc
      · obtain ⟨later, hlater⟩ := exists_walkFrom_eq g (c :: seen) (g.next c ++ rest)
        rw [hlater]
        exact List.mem_append_left later (List.mem_reverse.2 List.mem_cons_self)
      · exact hrest.1 c (List.mem_append_right _ hc)

/-- A walk visits exactly what can be reached from where it starts. -/
theorem mem_walk {start : List α} {b : α} :
    b ∈ g.walk start ↔ ∃ a ∈ start, Relation.ReflTransGen g.Step a b := by
  constructor
  · intro h
    rcases reaches_of_mem_walkFrom h with hseen | hreach
    · cases hseen
    · exact hreach
  · rintro ⟨a, ha, hreach⟩
    have hwalk : (∀ a ∈ start, a ∈ g.walk start) ∧ ∀ a ∈ g.walk start, ∀ b ∈ g.next a, b ∈ g.walk start :=
      walkFrom_closed nofun
    induction hreach with
    | refl => exact hwalk.1 a ha
    | tail _ hstep ih => exact hwalk.2 _ ih _ hstep

theorem nodup_walk (start : List α) : (g.walk start).Nodup :=
  nodup_walkFrom List.nodup_nil

theorem exists_walk_eq_cons (g : Graph α) (a : α) : ∃ later, g.walk [a] = a :: later := by
  obtain ⟨later, hlater⟩ := exists_walkFrom_eq g [a] (g.next a)
  refine ⟨later, ?_⟩
  rw [walk, walkFrom, if_neg (by simp), List.append_nil, hlater]
  rfl

/-- A relation that joins nodes into chains: who comes after a node is its first successor, and all other successors
begin a chain. -/
structure Chains (g : Graph α) (Next : α → α → Prop) : Prop where
  irrefl : ∀ a, ¬ Next a a
  unique : ∀ a a' b, Next a b → Next a' b → a = a'
  first : ∀ a b, Next a b → ∃ more, g.next a = b :: more
  others : ∀ a, ∀ b ∈ g.next a, Next a b ∨ ∀ c, ¬ Next c b

/-- A walk that enters chains only where they begin goes on from a node to the next one of its chain.  The invariant is
that whoever comes before a visited or waiting node of a chain was visited. -/
theorem Chains.infix_walkFrom {Next : α → α → Prop} (h : g.Chains Next)
    (hseen : ∀ b ∈ seen, ∀ a, Next a b → a ∈ seen) (hpending : ∀ b ∈ pending, ∀ a, Next a b → a ∈ seen)
    {a b : α} (ha : a ∈ g.walkFrom seen pending) (hnew : a ∉ seen) (hab : Next a b) :
    [a, b] <:+: g.walkFrom seen pending := by
  fun_induction g.walkFrom seen pending with
  | case1 seen => exact absurd (List.mem_reverse.1 ha) hnew
  | case2 seen c rest _ ih => exact ih hseen (fun d hd => hpending d (List.mem_cons_of_mem c hd)) ha hnew
  | case3 seen c rest hc ih =>
      have hc : c ∉ seen := by simpa using hc
      by_cases hac : a = c
      · subst hac
        obtain ⟨more, hmore⟩ := h.first a b hab
        have hb : b ∉ a :: seen := by
          intro hb
          rcases List.mem_cons.1 hb with rfl | hb
          · exact h.irrefl b hab
          · exact hc (hseen b hb a hab)
        obtain ⟨later, hlater⟩ := exists_walkFrom_eq g (b :: a :: seen) (g.next b ++ (more ++ rest))
        refine ⟨seen.reverse, later, ?_⟩
        rw [hmore, List.cons_append, walkFrom, if_neg (by simpa using hb), hlater]
        simp
      · refine ih ?_ ?_ ha (by simp [hac, hnew])
        · intro d hd e hed
          rcases List.mem_cons.1 hd with rfl | hd
          · exact List.mem_cons_of_mem d (hpending d List.mem_cons_self e hed)
          · exact List.mem_cons_of_mem c (hseen d hd e hed)
        · intro d hd e hed
          rcases List.mem_append.1 hd with hd | hd
          · rcases h.others c d hd with hcd | hnone
            · exact h.unique c e d hcd hed ▸ List.mem_cons_self
            · exact absurd hed (hnone e)
          · exact List.mem_cons_of_mem c (hpending d (List.mem_cons_of_mem c hd) e hed)

theorem Chains.infix_walk {Next : α → α → Prop} (h : g.Chains Next) {start a b : α}
    (hstart : ∀ c, ¬ Next c start) (ha : a ∈ g.walk [start]) (hab : Next a b) :
    [a, b] <:+: g.walk [start] :=
  h.infix_walkFrom (by simp)
    (fun d hd c hc => absurd (List.mem_singleton.1 hd ▸ hc) (hstart c)) ha List.not_mem_nil hab

end Unscramble.Graph
