/-
Computations that may fail, read backwards: what the parts of a computation gave when the whole of it gave
a result.
-/
import Mathlib.Data.List.Forall2

namespace Unscramble

variable {ε α β : Type}

theorem bind_eq_ok {x : Except ε α} {f : α → Except ε β} {b : β} :
    x >>= f = .ok b ↔ ∃ a, x = .ok a ∧ f a = .ok b := by
  cases x with
  | error e => simp [bind, Except.bind]
  | ok a => simp [bind, Except.bind]

theorem bind_eq_error {x : Except ε α} {f : α → Except ε β} {e : ε} :
    x >>= f = .error e ↔ x = .error e ∨ ∃ a, x = .ok a ∧ f a = .error e := by
  cases x with
  | error e => simp [bind, Except.bind]
  | ok a => simp [bind, Except.bind]

theorem toOption_eq_some {x : Except ε α} {a : α} : x.toOption = some a ↔ x = .ok a := by
  cases x with
  | error e => simp [Except.toOption]
  | ok b => simp [Except.toOption]

theorem map_eq_ok {x : Except ε α} {f : α → β} {b : β} :
    x.map f = .ok b ↔ ∃ a, x = .ok a ∧ f a = b := by
  cases x with
  | error e => simp [Except.map]
  | ok a => simp [Except.map]

theorem mapError_eq_ok {δ : Type} {x : Except ε α} {f : ε → δ} {a : α} :
    x.mapError f = .ok a ↔ x = .ok a := by
  cases x with
  | error e => simp [Except.mapError]
  | ok a => simp [Except.mapError]

/-- A computation on every item of a list gives a result where it does so on each item. -/
theorem mapM_eq_ok {f : α → Except ε β} {items : List α} {results : List β} :
    items.mapM f = .ok results ↔ List.Forall₂ (fun a b => f a = .ok b) items results := by
  induction items generalizing results with
  | nil =>
      rw [List.mapM_nil, List.forall₂_nil_left_iff]
      exact ⟨fun h => (Except.ok.inj h).symm, fun h => h ▸ rfl⟩
  | cons a rest ih =>
      rw [List.mapM_cons, bind_eq_ok, List.forall₂_cons_left_iff]
      constructor
      · rintro ⟨b, hb, hrest⟩
        obtain ⟨others, hothers, heq⟩ := bind_eq_ok.1 hrest
        exact ⟨b, others, hb, ih.1 hothers, (Except.ok.inj heq).symm⟩
      · rintro ⟨b, others, hb, hothers, rfl⟩
        exact ⟨b, hb, bind_eq_ok.2 ⟨others, ih.2 hothers, rfl⟩⟩

/-- A computation on every item of a list fails where it fails on an item. -/
theorem mapM_eq_error {f : α → Except ε β} {items : List α} {e : ε} (h : items.mapM f = .error e) :
    ∃ a ∈ items, f a = .error e := by
  induction items with
  | nil => cases h
  | cons a rest ih =>
      rw [List.mapM_cons] at h
      rcases bind_eq_error.1 h with hfirst | ⟨b, -, h⟩
      · exact ⟨a, List.mem_cons_self, hfirst⟩
      · rcases bind_eq_error.1 h with hrest | ⟨others, -, h⟩
        · obtain ⟨a', ha', hfa'⟩ := ih hrest
          exact ⟨a', List.mem_cons_of_mem a ha', hfa'⟩
        · cases h

/-- The items and the results of a computation are related where each item is related to its own result. -/
theorem forall₂_of_mapM {rel : α → β → Prop} {f : α → Except ε β} {items : List α} {results : List β}
    (h : items.mapM f = .ok results) (himp : ∀ a ∈ items, ∀ b, f a = .ok b → rel a b) :
    List.Forall₂ rel items results := by
  have hpairs := mapM_eq_ok.1 h
  clear h
  induction hpairs with
  | nil => exact .nil
  | cons hfirst _ ih =>
      obtain ⟨ha, hrest⟩ := List.forall_mem_cons.1 himp
      exact .cons (ha _ hfirst) (ih hrest)

theorem map_eq_of_forall₂ {γ : Type} {f : α → γ} {g : β → γ} {items : List α} {others : List β}
    (h : List.Forall₂ (fun a b => f a = g b) items others) : items.map f = others.map g := by
  rw [← List.forall₂_eq_eq_eq, List.forall₂_map_left_iff, List.forall₂_map_right_iff]
  exact h

section Related

variable {R : α → β → Prop} {left : List α} {right : List β} {a : α} {b : β}

theorem forall₂_set (h : List.Forall₂ R left right) (hab : R a b) (index : Nat) :
    List.Forall₂ R (left.set index a) (right.set index b) := by
  induction h generalizing index with
  | nil => exact .nil
  | cons hfirst hrest ih =>
      cases index with
      | zero => exact .cons hab hrest
      | succ index => exact .cons hfirst (ih index)

theorem forall₂_getElem? (h : List.Forall₂ R left right) {index : Nat} (ha : left[index]? = some a) :
    ∃ b, right[index]? = some b ∧ R a b := by
  obtain ⟨hindex, rfl⟩ := List.getElem?_eq_some_iff.1 ha
  have hindex' : index < right.length := h.length_eq ▸ hindex
  exact ⟨right[index], List.getElem?_eq_getElem hindex', (List.forall₂_iff_get.1 h).2 index hindex hindex'⟩

/-- Two steps from list to list, taken together. -/
theorem forall₂_comp {γ : Type} {S : β → γ → Prop} {T : α → γ → Prop} {last : List γ}
    (hcomp : ∀ a b c, R a b → S b c → T a c) (h : List.Forall₂ R left right) (h' : List.Forall₂ S right last) :
    List.Forall₂ T left last := by
  induction h generalizing last with
  | nil =>
      cases h'
      exact .nil
  | cons hfirst _ ih =>
      cases h' with
      | cons hsecond hrest => exact .cons (hcomp _ _ _ hfirst hsecond) (ih hrest)

theorem forall₂_zipWith {γ δ : Type} {S : α → γ → Prop} {T : α → δ → Prop} {f : β → γ → δ} {other : List γ}
    (hzip : ∀ a b c, R a b → S a c → T a (f b c)) (h : List.Forall₂ R left right)
    (h' : List.Forall₂ S left other) : List.Forall₂ T left (List.zipWith f right other) := by
  induction h generalizing other with
  | nil => exact .nil
  | cons hfirst _ ih =>
      cases h' with
      | cons hsecond hrest => exact .cons (hzip _ _ _ hfirst hsecond) (ih hrest)

end Related

section Zipped

variable {R : α → α → Prop} {f : α → α → α} {left right : List α}

/-- What is made of two values of lists of the same length, beside either of them. -/
theorem zipWith_forall₂ (hlength : left.length = right.length)
    (h : ∀ a ∈ left, ∀ b ∈ right, R (f a b) a ∧ R (f a b) b) :
    List.Forall₂ R (List.zipWith f left right) left ∧ List.Forall₂ R (List.zipWith f left right) right := by
  induction left generalizing right with
  | nil =>
      obtain rfl := List.eq_nil_of_length_eq_zero hlength.symm
      exact ⟨.nil, .nil⟩
  | cons a rest ih =>
      cases right with
      | nil => cases hlength
      | cons b others =>
          have hrest := ih (Nat.succ.inj hlength)
            fun a ha b hb => h a (List.mem_cons_of_mem _ ha) b (List.mem_cons_of_mem _ hb)
          obtain ⟨hleft, hright⟩ := h a List.mem_cons_self b List.mem_cons_self
          exact ⟨.cons hleft hrest.1, .cons hright hrest.2⟩

end Zipped

theorem exists_mapM_eq_ok {f : α → Except ε β} {items : List α} (h : ∀ a ∈ items, ∃ b, f a = .ok b) :
    ∃ results, items.mapM f = .ok results := by
  induction items with
  | nil => exact ⟨[], rfl⟩
  | cons a rest ih =>
      obtain ⟨b, hb⟩ := h a List.mem_cons_self
      obtain ⟨others, hothers⟩ := ih fun a ha => h a (List.mem_cons_of_mem _ ha)
      exact ⟨b :: others, mapM_eq_ok.2 (.cons hb (mapM_eq_ok.1 hothers))⟩

theorem mem_of_mapM_eq_ok {f : α → Except ε β} {items : List α} {results : List β}
    {a : α} {b : β} (h : items.mapM f = .ok results) (ha : a ∈ items) (hb : f a = .ok b) :
    b ∈ results := by
  have hpairs := mapM_eq_ok.1 h
  clear h
  induction hpairs with
  | nil => cases ha
  | cons hfirst _ ih =>
      rcases List.mem_cons.1 ha with rfl | ha
      · rw [hb] at hfirst
        obtain rfl := Except.ok.inj hfirst
        exact List.mem_cons_self
      · exact List.mem_cons_of_mem _ (ih ha)

theorem exists_mem_of_mapM {f : α → Except ε β} {items : List α} {results : List β} {a : α}
    (h : items.mapM f = .ok results) (ha : a ∈ items) : ∃ b ∈ results, f a = .ok b := by
  cases hb : f a with
  | ok b => exact ⟨b, mem_of_mapM_eq_ok h ha hb, rfl⟩
  | error e =>
      obtain ⟨index, hindex, rfl⟩ := List.mem_iff_getElem.1 ha
      have hpairs := mapM_eq_ok.1 h
      have hresult := (List.forall₂_iff_get.1 hpairs).2 index hindex (hpairs.length_eq ▸ hindex)
      exact absurd (hb.symm.trans hresult) nofun

theorem exists_of_mem_mapM {f : α → Except ε β} {items : List α} {results : List β} {b : β}
    (h : items.mapM f = .ok results) (hb : b ∈ results) : ∃ a ∈ items, f a = .ok b := by
  have hpairs := mapM_eq_ok.1 h
  clear h
  induction hpairs with
  | nil => cases hb
  | cons hfirst _ ih =>
      rcases List.mem_cons.1 hb with rfl | hb
      · exact ⟨_, List.mem_cons_self, hfirst⟩
      · obtain ⟨a, ha, hfa⟩ := ih hb
        exact ⟨a, List.mem_cons_of_mem _ ha, hfa⟩

/-- Another computation on every item gives what follows from the results of the first one. -/
theorem mapM_map_eq_ok {γ : Type} {f : α → Except ε β} {f' : α → Except ε γ} {g : β → γ} {items : List α}
    {results : List β} (h : items.mapM f = .ok results)
    (himp : ∀ a, ∀ b ∈ results, f a = .ok b → f' a = .ok (g b)) : items.mapM f' = .ok (results.map g) := by
  have hpairs := mapM_eq_ok.1 h
  rw [mapM_eq_ok, List.forall₂_map_right_iff]
  clear h
  induction hpairs with
  | nil => exact .nil
  | cons hfirst _ ih =>
      exact .cons (himp _ _ List.mem_cons_self hfirst) (ih fun a b hb => himp a b (List.mem_cons_of_mem _ hb))

/-- Results can be changed one by one or all at the end. -/
theorem mapM_map {γ : Type} (f : α → Except ε β) (g : β → γ) (items : List α) :
    (items.mapM fun a => (f a).map g) = (items.mapM f).map (List.map g) := by
  induction items with
  | nil => rfl
  | cons a rest ih =>
      rw [List.mapM_cons, List.mapM_cons, ih]
      cases f a with
      | error reason => rfl
      | ok b => cases rest.mapM f <;> rfl

/-- A selection that gives a result does so on every item, and the result is what the items give. -/
theorem filterMapM_eq_ok {f : α → Except ε (Option β)} {items : List α} {results : List β}
    (h : items.filterMapM f = .ok results) :
    (∀ a ∈ items, ∃ answer, f a = .ok answer) ∧
      results = items.filterMap fun a => (f a).toOption.join := by
  induction items generalizing results with
  | nil =>
      rw [List.filterMapM_nil] at h
      exact ⟨nofun, (Except.ok.inj h).symm⟩
  | cons a rest ih =>
      rw [List.filterMapM_cons] at h
      obtain ⟨answer, hanswer, h⟩ := bind_eq_ok.1 h
      have hall : ∀ {others}, rest.filterMapM f = .ok others →
          ∀ item ∈ a :: rest, ∃ answer, f item = .ok answer := by
        intro others hothers item hitem
        rcases List.mem_cons.1 hitem with rfl | hrest
        · exact ⟨answer, hanswer⟩
        · exact (ih hothers).1 item hrest
      cases answer with
      | none =>
          have hjoin : (f a).toOption.join = none := by rw [hanswer]; rfl
          exact ⟨hall h, by rw [List.filterMap_cons, hjoin, ← (ih h).2]⟩
      | some b =>
          obtain ⟨others, hothers, hresults⟩ := bind_eq_ok.1 h
          have hjoin : (f a).toOption.join = some b := by rw [hanswer]; rfl
          refine ⟨hall hothers, ?_⟩
          rw [List.filterMap_cons, hjoin, ← (ih hothers).2]
          exact (Except.ok.inj hresults).symm

theorem exists_filterMapM_eq_ok {f : α → Except ε (Option β)} {items : List α}
    (h : ∀ a ∈ items, ∃ answer, f a = .ok answer) : ∃ results, items.filterMapM f = .ok results := by
  induction items with
  | nil => exact ⟨[], rfl⟩
  | cons a rest ih =>
      obtain ⟨answer, hanswer⟩ := h a List.mem_cons_self
      obtain ⟨others, hothers⟩ := ih fun a ha => h a (List.mem_cons_of_mem _ ha)
      cases answer with
      | none => exact ⟨others, List.filterMapM_cons.trans (bind_eq_ok.2 ⟨none, hanswer, hothers⟩)⟩
      | some b =>
          refine ⟨b :: others, List.filterMapM_cons.trans (bind_eq_ok.2 ⟨some b, hanswer, ?_⟩)⟩
          exact bind_eq_ok.2 ⟨others, hothers, rfl⟩

/-- A selection fails where it fails on an item. -/
theorem filterMapM_eq_error {f : α → Except ε (Option β)} {items : List α} {e : ε}
    (h : items.filterMapM f = .error e) : ∃ a ∈ items, f a = .error e := by
  induction items with
  | nil => cases h
  | cons a rest ih =>
      have hlater (hrest : rest.filterMapM f = .error e) : ∃ a' ∈ a :: rest, f a' = .error e := by
        obtain ⟨a', ha', hfa'⟩ := ih hrest
        exact ⟨a', List.mem_cons_of_mem a ha', hfa'⟩
      rw [List.filterMapM_cons] at h
      rcases bind_eq_error.1 h with hfirst | ⟨answer, -, h⟩
      · exact ⟨a, List.mem_cons_self, hfirst⟩
      · cases answer with
        | none => exact hlater h
        | some b =>
            rcases bind_eq_error.1 h with hrest | ⟨others, -, h⟩
            · exact hlater hrest
            · cases h

theorem exists_of_mem_filterMapM {f : α → Except ε (Option β)} {items : List α} {results : List β} {b : β}
    (h : items.filterMapM f = .ok results) (hb : b ∈ results) : ∃ a ∈ items, f a = .ok (some b) := by
  rw [(filterMapM_eq_ok h).2, List.mem_filterMap] at hb
  obtain ⟨a, ha, hjoin⟩ := hb
  cases hanswer : f a with
  | error e => simp [hanswer, Except.toOption] at hjoin
  | ok answer =>
      rw [hanswer] at hjoin
      exact ⟨a, ha, hanswer.trans (congrArg Except.ok hjoin)⟩

theorem filterAuxM_eq_ok {f : α → Except ε Bool} {items earlier kept : List α}
    (h : items.filterAuxM f earlier = .ok kept) : ∃ others, kept.reverse = earlier.reverse ++ others ∧
      others.Sublist items := by
  induction items generalizing earlier with
  | nil =>
      obtain rfl := Except.ok.inj h
      exact ⟨[], by simp, .slnil⟩
  | cons a rest ih =>
      rw [List.filterAuxM] at h
      obtain ⟨answer, -, h⟩ := bind_eq_ok.1 h
      obtain ⟨others, hkept, hsublist⟩ := ih h
      cases answer with
      | true => exact ⟨a :: others, by simp [hkept], hsublist.cons_cons a⟩
      | false => exact ⟨others, hkept, hsublist.cons a⟩

theorem filterM_sublist {f : α → Except ε Bool} {items kept : List α}
    (h : items.filterM f = .ok kept) : kept.Sublist items := by
  obtain ⟨backwards, hbackwards, h⟩ := bind_eq_ok.1 h
  obtain rfl := Except.ok.inj h
  obtain ⟨others, hkept, hsublist⟩ := filterAuxM_eq_ok hbackwards
  rwa [hkept]

/-- What a filter keeps has been asked for with success. -/
theorem of_mem_filterM {f : α → Except ε Bool} {items kept : List α} {a : α} (h : items.filterM f = .ok kept)
    (ha : a ∈ kept) : f a = .ok true := by
  have haux : ∀ earlier backwards, items.filterAuxM f earlier = .ok backwards → a ∈ backwards →
      a ∈ earlier ∨ f a = .ok true := by
    intro earlier backwards hbackwards hmem
    clear h
    induction items generalizing earlier with
    | nil =>
        obtain rfl := Except.ok.inj hbackwards
        exact .inl hmem
    | cons first rest ih =>
        rw [List.filterAuxM] at hbackwards
        obtain ⟨answer, hanswer, hbackwards⟩ := bind_eq_ok.1 hbackwards
        rcases ih _ hbackwards with hearlier | htrue
        · cases answer with
          | false => exact .inl hearlier
          | true =>
              rcases List.mem_cons.1 hearlier with rfl | hearlier
              · exact .inr hanswer
              · exact .inl hearlier
        · exact .inr htrue
  obtain ⟨backwards, hbackwards, h⟩ := bind_eq_ok.1 h
  obtain rfl := Except.ok.inj h
  exact (haux [] backwards hbackwards (List.mem_reverse.1 ha)).resolve_left (List.not_mem_nil)

theorem of_allM {f : α → Except ε Bool} {items : List α} {a : α} (h : items.allM f = .ok true) (ha : a ∈ items) :
    f a = .ok true := by
  induction items with
  | nil => cases ha
  | cons first rest ih =>
      obtain ⟨answer, hanswer, h⟩ := bind_eq_ok.1 h
      cases answer with
      | false => cases h
      | true =>
          rcases List.mem_cons.1 ha with rfl | ha
          · exact hanswer
          · exact ih h ha

theorem exists_filterM_eq_ok {f : α → Except ε Bool} {items : List α}
    (h : ∀ a ∈ items, ∃ answer, f a = .ok answer) : ∃ kept, items.filterM f = .ok kept := by
  have haux : ∀ earlier, ∃ kept, items.filterAuxM f earlier = .ok kept := by
    induction items with
    | nil => exact fun earlier => ⟨earlier, rfl⟩
    | cons a rest ih =>
        intro earlier
        obtain ⟨answer, hanswer⟩ := h a List.mem_cons_self
        have hrest := ih fun a ha => h a (List.mem_cons_of_mem _ ha)
        obtain ⟨kept, hkept⟩ := hrest (cond answer (a :: earlier) earlier)
        exact ⟨kept, bind_eq_ok.2 ⟨answer, hanswer, hkept⟩⟩
  obtain ⟨backwards, hbackwards⟩ := haux []
  exact ⟨backwards.reverse, bind_eq_ok.2 ⟨backwards, hbackwards, rfl⟩⟩

/-- A filter whose answers are known beforehand is one that cannot fail. -/
theorem filterM_eq_ok_filter {f : α → Except ε Bool} {keep : α → Bool} {items : List α}
    (h : ∀ a ∈ items, f a = .ok (keep a)) : items.filterM f = .ok (items.filter keep) := by
  have haux : ∀ earlier, items.filterAuxM f earlier = .ok ((items.filter keep).reverse ++ earlier) := by
    induction items with
    | nil => exact fun earlier => rfl
    | cons a rest ih =>
        intro earlier
        obtain ⟨hfirst, hrest⟩ := List.forall_mem_cons.1 h
        rw [List.filterAuxM]
        refine bind_eq_ok.2 ⟨keep a, hfirst, ?_⟩
        rw [ih hrest, List.filter_cons]
        cases keep a <;> simp
  exact bind_eq_ok.2 ⟨_, haux [], by simp [pure, Except.pure]⟩

end Unscramble
