/-
Tables: lists of keys with values, in which a key is looked up from the front.
-/
import Mathlib.Data.List.Basic

namespace Unscramble

variable {α β : Type} [BEq α] [LawfulBEq α] {table : List (α × β)} {key : α} {value : β}

theorem mem_of_lookup (h : table.lookup key = some value) : (key, value) ∈ table := by
  obtain ⟨before, after, rfl, _⟩ := List.lookup_eq_some_iff.1 h
  exact List.mem_append_right before List.mem_cons_self

theorem not_mem_of_lookup (h : table.lookup key = none) (value : β) : (key, value) ∉ table := by
  intro hmem
  have hkey := List.lookup_eq_none_iff.1 h _ hmem
  simp at hkey

/-- Where no key stands twice, looking a key up gives the value that stands beside it. -/
theorem lookup_eq_some_iff_mem (hdistinct : (table.map Prod.fst).Nodup) :
    table.lookup key = some value ↔ (key, value) ∈ table := by
  refine ⟨mem_of_lookup, fun hmem => ?_⟩
  obtain ⟨before, after, rfl⟩ := List.append_of_mem hmem
  refine List.lookup_eq_some_iff.2 ⟨before, after, rfl, fun entry hentry => ?_⟩
  rw [List.map_append, List.map_cons, List.nodup_append] at hdistinct
  have hne := hdistinct.2.2 entry.1 (List.mem_map_of_mem hentry) key List.mem_cons_self
  simpa using Ne.symm hne

theorem lookup_filter_ne {other : α} (h : other ≠ key) :
    (table.filter (·.1 != key)).lookup other = table.lookup other := by
  induction table with
  | nil => rfl
  | cons entry rest ih =>
      by_cases hkey : entry.1 = key
      · have hother : (other == entry.1) = false := by simpa [hkey] using h
        rw [List.filter_cons_of_neg (by simpa using hkey), List.lookup_cons, hother]
        exact ih
      · rw [List.filter_cons_of_pos (by simpa using hkey), List.lookup_cons, List.lookup_cons, ih]

omit [LawfulBEq α] in
theorem lookup_map_snd {γ : Type} (f : β → γ) (table : List (α × β)) (key : α) :
    (table.map fun p => (p.1, f p.2)).lookup key = (table.lookup key).map f := by
  induction table with
  | nil => rfl
  | cons entry rest ih =>
      rw [List.map_cons, List.lookup_cons, List.lookup_cons]
      cases key == entry.1 with
      | true => rfl
      | false => exact ih

theorem pairwise_mergeSort_key {ι : Type} (key : ι → Nat) (items : List ι) :
    (items.mergeSort fun a b => key a ≤ key b).Pairwise fun a b => key a ≤ key b := by
  refine (List.pairwise_mergeSort ?_ ?_ items).imp of_decide_eq_true
  · intro a b c hab hbc
    exact decide_eq_true (Nat.le_trans (of_decide_eq_true hab) (of_decide_eq_true hbc))
  · intro a b
    simpa using Nat.le_total (key a) (key b)

theorem nodup_eraseDups (items : List α) : items.eraseDups.Nodup := by
  match items with
  | [] => exact List.nodup_nil
  | a :: rest =>
      rw [List.eraseDups_cons, List.nodup_cons, List.mem_eraseDups]
      exact ⟨by simp, nodup_eraseDups (rest.filter fun b => !b == a)⟩
termination_by items.length
decreasing_by
  have := List.length_filter_le (fun b => !b == a) rest
  simp only [List.length_cons]
  omega

end Unscramble
