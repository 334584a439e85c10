/-
The laws of the domains of kinds and of origins.  A kind is absorbed by itself and by the kind of which
nothing is known; an origin is absorbed by one that is no larger and has all of its makers.  Joining expressions
obeys no such laws, but there are only a few ways of doing it.
-/
import Unscramble.Domain.Exprs
import Unscramble.Domain.Kinds
import Unscramble.Domain.Origins
import Unscramble.Proofs.FrameOrder

namespace Unscramble

namespace Domain

theorem kinds_absorbs_iff (a b : Kind) : kinds.Absorbs a b ↔ a = b ∨ a = .uninitialized := by
  simp only [Absorbs, kinds]
  split
  · next h => simp [h]
  · next h => simp [h, eq_comm]

theorem kinds_lawful : kinds.Lawful fun _ => True where
  same_iff a b := by simp [kinds]
  good_fresh _ := trivial
  good_push _ _ _ := trivial
  good_copy _ _ _ _ := trivial
  good_result _ _ := trivial
  good_binary _ _ _ _ _ _ _ := trivial
  good_merge _ _ _ _ := trivial
  absorbs_refl a _ := (kinds_absorbs_iff a a).2 (.inl rfl)
  absorbs_trans a b c _ _ _ hab hbc := by
    rw [kinds_absorbs_iff] at hab hbc ⊢
    rcases hab with rfl | rfl
    · exact hbc
    · exact .inr rfl
  merge_absorbs_left a b _ _ := by
    rw [kinds_absorbs_iff]
    by_cases h : a = b
    · exact .inl (by simp [kinds, h])
    · exact .inr (by simp [kinds, h])
  merge_absorbs_right a b _ _ := by
    rw [kinds_absorbs_iff]
    by_cases h : a = b
    · exact .inl (by simp [kinds, h])
    · exact .inr (by simp [kinds, h])

end Domain

namespace Origin

/-- The makers of an origin are listed in ascending order, each of them once. -/
def Ascending (o : Origin) : Prop :=
  o.makers.Pairwise (· < ·)

theorem mem_insertMaker (n m : Nat) (makers : List Nat) :
    m ∈ insertMaker n makers ↔ m = n ∨ m ∈ makers := by
  induction makers with
  | nil => simp [insertMaker]
  | cons head rest ih =>
      unfold insertMaker
      split
      · simp
      · split
        · next h => simp [h]
        · rw [List.mem_cons, ih, List.mem_cons]
          exact or_left_comm

theorem insertMaker_ascending (n : Nat) {makers : List Nat} (h : makers.Pairwise (· < ·)) :
    (insertMaker n makers).Pairwise (· < ·) := by
  induction makers with
  | nil => simp [insertMaker]
  | cons head rest ih =>
      rw [List.pairwise_cons] at h
      unfold insertMaker
      split
      · next hlt =>
          refine List.pairwise_cons.2 ⟨?_, List.pairwise_cons.2 h⟩
          intro m hm
          rcases List.mem_cons.1 hm with rfl | hm
          · exact hlt
          · exact Nat.lt_trans hlt (h.1 m hm)
      · split
        · exact List.pairwise_cons.2 h
        · refine List.pairwise_cons.2 ⟨?_, ih h.2⟩
          intro m hm
          rcases (mem_insertMaker n m rest).1 hm with rfl | hm
          · omega
          · exact h.1 m hm

/-- A maker that is there already is not added again. -/
theorem insertMaker_of_mem {n : Nat} {makers : List Nat} (h : makers.Pairwise (· < ·))
    (hmem : n ∈ makers) : insertMaker n makers = makers := by
  induction makers with
  | nil => simp at hmem
  | cons head rest ih =>
      rw [List.pairwise_cons] at h
      unfold insertMaker
      rcases List.mem_cons.1 hmem with rfl | hrest
      · simp
      · have hlt := h.1 n hrest
        rw [if_neg (by omega), if_neg (by omega), ih h.2 hrest]

theorem mem_foldl_insertMaker (m : Nat) (added makers : List Nat) :
    m ∈ added.foldl (fun makers n => insertMaker n makers) makers ↔ m ∈ makers ∨ m ∈ added := by
  induction added generalizing makers with
  | nil => simp
  | cons n rest ih =>
      rw [List.foldl_cons, ih, mem_insertMaker, List.mem_cons, or_comm (a := m = n), or_assoc]

theorem foldl_insertMaker_ascending (added : List Nat) {makers : List Nat}
    (h : makers.Pairwise (· < ·)) :
    (added.foldl (fun makers n => insertMaker n makers) makers).Pairwise (· < ·) := by
  induction added generalizing makers with
  | nil => exact h
  | cons n rest ih => exact ih (insertMaker_ascending n h)

theorem foldl_insertMaker_of_subset {added makers : List Nat} (h : makers.Pairwise (· < ·))
    (hsubset : added ⊆ makers) :
    added.foldl (fun makers n => insertMaker n makers) makers = makers := by
  induction added with
  | nil => rfl
  | cons n rest ih =>
      rw [List.cons_subset] at hsubset
      rw [List.foldl_cons, insertMaker_of_mem h hsubset.1, ih hsubset.2]

theorem mem_merge_makers (a b : Origin) (m : Nat) :
    m ∈ (a.merge b).makers ↔ m ∈ a.makers ∨ m ∈ b.makers :=
  mem_foldl_insertMaker m b.makers a.makers

/-- One origin absorbs another that is at least as large and has no other makers. -/
theorem merge_eq_left_iff {a b : Origin} (ha : a.Ascending) :
    a.merge b = a ↔ a.size ≤ b.size ∧ b.makers ⊆ a.makers := by
  constructor
  · intro h
    constructor
    · have hsize := congrArg Origin.size h
      simp only [merge] at hsize
      omega
    · intro m hm
      rw [← h]
      exact (mem_merge_makers a b m).2 (.inr hm)
  · rintro ⟨hsize, hmakers⟩
    rw [merge, foldl_insertMaker_of_subset ha hmakers, Nat.min_eq_left hsize]

theorem merge_ascending {a : Origin} (b : Origin) (ha : a.Ascending) : (a.merge b).Ascending :=
  foldl_insertMaker_ascending b.makers ha

theorem merge_self {a : Origin} (ha : a.Ascending) : a.merge a = a :=
  (merge_eq_left_iff ha).2 ⟨Nat.le_refl _, List.Subset.refl _⟩

theorem merge_merge_left {a b : Origin} (ha : a.Ascending) : (a.merge b).merge a = a.merge b := by
  rw [merge_eq_left_iff (merge_ascending b ha)]
  exact ⟨Nat.min_le_left _ _, fun m hm => (mem_merge_makers a b m).2 (.inl hm)⟩

theorem merge_merge_right {a b : Origin} (ha : a.Ascending) : (a.merge b).merge b = a.merge b := by
  rw [merge_eq_left_iff (merge_ascending b ha)]
  exact ⟨Nat.min_le_right _ _, fun m hm => (mem_merge_makers a b m).2 (.inr hm)⟩

theorem merge_eq_left_trans {a b c : Origin} (ha : a.Ascending) (hb : b.Ascending)
    (hab : a.merge b = a) (hbc : b.merge c = b) : a.merge c = a := by
  rw [merge_eq_left_iff ha] at hab ⊢
  rw [merge_eq_left_iff hb] at hbc
  exact ⟨Nat.le_trans hab.1 hbc.1, fun m hm => hab.2 (hbc.2 hm)⟩

end Origin

theorem Domain.origins_lawful : origins.Lawful Origin.Ascending where
  same_iff a b := by simp [origins]
  good_fresh _ := List.Pairwise.nil
  good_push _ _ _ := List.pairwise_singleton _ _
  good_copy _ _ _ _ := List.pairwise_singleton _ _
  good_result _ _ := List.pairwise_singleton _ _
  good_binary _ _ _ _ _ _ _ := List.pairwise_singleton _ _
  good_merge _ b ha _ := Origin.merge_ascending b ha
  absorbs_refl _ ha := Origin.merge_self ha
  absorbs_trans _ _ _ ha hb _ hab hbc := Origin.merge_eq_left_trans ha hb hab hbc
  merge_absorbs_left _ _ ha _ := Origin.merge_merge_left ha
  merge_absorbs_right _ _ ha _ := Origin.merge_merge_right ha

namespace Expr

/-- How two expressions are joined into a third one: equal ones stay, products and sums that the same instructions made
keep a side that they share, and of all others the form is forgotten. -/
inductive Joined : Expr → Expr → Expr → Prop
  | same (e : Expr) : Joined e e e
  | mulLeft {o o' : Origin} {a b b' c : Expr} (hmakers : o.makers = o'.makers) (h : Joined b b' c) :
      Joined (mul o a b) (mul o' a b') (mul o a c)
  | mulRight {o o' : Origin} {a a' b c : Expr} (hmakers : o.makers = o'.makers) (h : Joined a a' c) :
      Joined (mul o a b) (mul o' a' b) (mul o c b)
  | addLeft {o o' : Origin} {a b b' c : Expr} (hmakers : o.makers = o'.makers) (h : Joined b b' c) :
      Joined (add o a b) (add o' a b') (add o a c)
  | addRight {o o' : Origin} {a a' b c : Expr} (hmakers : o.makers = o'.makers) (h : Joined a a' c) :
      Joined (add o a b) (add o' a' b) (add o c b)
  | forget (e e' : Expr) : Joined e e' (forgetForm e e')

theorem joined_merge (e e' : Expr) : Joined e e' (e.merge e') := by
  fun_induction Expr.merge e e' with
  | case1 _ _ _ _ _ _ heq | case6 _ _ _ _ _ _ heq => exact heq ▸ .same _
  | case13 => exact .same _
  | case2 o a b o' a' b' _ hmakers hequal ih =>
      obtain ⟨rfl, -⟩ := hequal
      exact .mulLeft hmakers ih
  | case3 o a b o' a' b' _ hmakers _ hequal ih =>
      obtain ⟨rfl, -⟩ := hequal
      exact .mulRight hmakers ih
  | case7 o a b o' a' b' _ hmakers hequal merged _ ih =>
      obtain ⟨rfl, -⟩ := hequal
      exact .addLeft hmakers ih
  | case9 o a b o' a' b' _ hmakers _ hequal merged _ ih =>
      obtain ⟨rfl, -⟩ := hequal
      exact .addRight hmakers ih
  | _ => exact .forget _ _

end Expr

end Unscramble
