/-
Depth-first walks of finite graphs.  A walk remembers what it has visited, so it ends on every graph,
cycles included: a step either shortens the list of what is still to be visited or visits a node for the
first time.
-/
namespace Unscramble

/-- A graph by its successor lists.  Names outside the nodes may occur as successors, but have none of
their own. -/
structure Graph (α : Type) where
  nodes : List α
  next : α → List α
  next_outside : ∀ a, a ∉ nodes → next a = []

theorem countP_lt_countP {α : Type} {p q : α → Bool} {l : List α}
    (hle : ∀ a ∈ l, q a → p a) {a : α} (ha : a ∈ l) (hp : p a = true) (hq : q a = false) :
    l.countP q < l.countP p := by
  induction l with
  | nil => simp at ha
  | cons b rest ih =>
      have hrest : ∀ c ∈ rest, q c → p c := fun c hc => hle c (List.mem_cons_of_mem b hc)
      have hmono := List.countP_mono_left hrest
      have hb := hle b List.mem_cons_self
      simp only [List.countP_cons]
      rcases List.mem_cons.1 ha with rfl | ha
      · simp only [hp, hq, Bool.false_eq_true, ↓reduceIte]
        omega
      · have := ih hrest ha
        split
        · simp_all
        · split <;> omega

/-- The number of nodes that are not in `seen`. -/
def unseen {α : Type} [DecidableEq α] (nodes seen : List α) : Nat :=
  nodes.countP fun a => !seen.contains a

theorem unseen_append_le {α : Type} [DecidableEq α] (nodes seen more : List α) :
    unseen nodes (seen ++ more) ≤ unseen nodes seen := by
  apply List.countP_mono_left
  intro a _ ha
  simp_all

/-- Meeting a node for the first time leaves fewer to meet. -/
theorem unseen_append_lt {α : Type} [DecidableEq α] {nodes seen more : List α} {a : α}
    (hnode : a ∈ nodes) (hseen : a ∉ seen) (hmore : a ∈ more) :
    unseen nodes (seen ++ more) < unseen nodes seen := by
  apply countP_lt_countP (a := a)
  · intro b _ hb
    simp_all
  · exact hnode
  · simpa using hseen
  · simp [hmore]

theorem unseen_cons {α : Type} [DecidableEq α] (nodes seen : List α) (a : α) :
    unseen nodes (a :: seen) = unseen nodes (seen ++ [a]) := by
  apply List.countP_congr
  intro b _
  simp [or_comm]

theorem unseen_cons_le {α : Type} [DecidableEq α] (nodes seen : List α) (a : α) :
    unseen nodes (a :: seen) ≤ unseen nodes seen :=
  unseen_cons nodes seen a ▸ unseen_append_le nodes seen [a]

theorem unseen_cons_lt {α : Type} [DecidableEq α] {nodes seen : List α} {a : α}
    (hnode : a ∈ nodes) (hseen : a ∉ seen) : unseen nodes (a :: seen) < unseen nodes seen :=
  unseen_cons nodes seen a ▸ unseen_append_lt hnode hseen List.mem_cons_self

namespace Graph

variable {α : Type} [DecidableEq α]

/-- Continues a walk: `pending` holds what is to be visited, the next one first, and `seen` what was
visited, the latest first.  The successors of a node are visited before what was pending, in the order in
which the graph lists them. -/
def walkFrom (g : Graph α) (seen pending : List α) : List α :=
  match pending with
  | [] => seen.reverse
  | a :: rest =>
      if seen.contains a then g.walkFrom seen rest
      else g.walkFrom (a :: seen) (g.next a ++ rest)
termination_by (unseen g.nodes seen, pending.length)
decreasing_by
  · exact Prod.Lex.right _ (by simp)
  · next hseen =>
      have hseen : a ∉ seen := by simpa using hseen
      by_cases hnode : a ∈ g.nodes
      · exact Prod.Lex.left _ _ (unseen_cons_lt hnode hseen)
      · rw [g.next_outside a hnode]
        rcases Nat.lt_or_eq_of_le (unseen_cons_le g.nodes seen a) with h | h
        · exact Prod.Lex.left _ _ h
        · rw [h]
          exact Prod.Lex.right _ (by simp)

/-- What a walk visits that starts with some nodes, in order. -/
def walk (g : Graph α) (start : List α) : List α :=
  g.walkFrom [] start

end Graph

end Unscramble
