/-
Computations that do what others did.  Where one encoder gives a result, another one gives a related result and leaves
the same constant pool.  The rules for sequences of computations carry this over whole encoders; over lists they allow
for items on either side that write nothing.
-/
import Mathlib.Data.List.Forall2
import Unscramble.ClassFile.PoolBuilder
import Unscramble.Proofs.Results

namespace Unscramble

section Aligned

variable {α β γ : Type} {skip : α → Prop} {skip' : β → Prop} {rel rel' : α → β → Prop} {l : List α} {l' : List β}

/-- Lists with related items, apart from items that are skipped. -/
inductive Aligned (skip : α → Prop) (skip' : β → Prop) (rel : α → β → Prop) : List α → List β → Prop
  | nil : Aligned skip skip' rel [] []
  | left {a : α} {l : List α} {l' : List β} (ha : skip a) (hrest : Aligned skip skip' rel l l') :
      Aligned skip skip' rel (a :: l) l'
  | right {b : β} {l : List α} {l' : List β} (hb : skip' b) (hrest : Aligned skip skip' rel l l') :
      Aligned skip skip' rel l (b :: l')
  | both {a : α} {b : β} {l : List α} {l' : List β} (hab : rel a b) (hrest : Aligned skip skip' rel l l') :
      Aligned skip skip' rel (a :: l) (b :: l')

namespace Aligned

theorem skips_right (h : ∀ b ∈ l', skip' b) : Aligned skip skip' rel [] l' := by
  induction l' with
  | nil => exact .nil
  | cons b l' ih =>
      obtain ⟨hb, hrest⟩ := List.forall_mem_cons.1 h
      exact .right hb (ih hrest)

/-- The items behind a first one that matters, on the other side behind those that are skipped. -/
theorem both_of_filter {p' : β → Bool} {a : α} {b : β} {rest : List β} (hskip : ∀ b, p' b = false → skip' b)
    (hfilter : l'.filter p' = b :: rest) (hab : p' b = true → rel a b)
    (hrest : ∀ later, later.filter p' = rest → Aligned skip skip' rel l later) :
    Aligned skip skip' rel (a :: l) l' := by
  induction l' with
  | nil => cases hfilter
  | cons b' l' ih =>
      cases hb' : p' b' with
      | true =>
          rw [List.filter_cons_of_pos hb'] at hfilter
          obtain ⟨rfl, hlater⟩ := List.cons.inj hfilter
          exact .both (hab hb') (hrest l' hlater)
      | false =>
          rw [List.filter_cons_of_neg (by simp [hb'])] at hfilter
          exact .right (hskip b' hb') (ih hfilter)

/-- Lists that are the same without the skipped items. -/
theorem of_filter {p : α → Bool} {p' : β → Bool} (hskip : ∀ a, p a = false → skip a)
    (hskip' : ∀ b, p' b = false → skip' b) (h : List.Forall₂ rel (l.filter p) (l'.filter p')) :
    Aligned skip skip' (fun a b => p a = true ∧ p' b = true ∧ rel a b) l l' := by
  induction l generalizing l' with
  | nil =>
      have hnone := List.forall₂_nil_left_iff.1 h
      rw [List.filter_eq_nil_iff] at hnone
      exact skips_right fun b hb => hskip' b (Bool.eq_false_iff.2 (hnone b hb))
  | cons a l ih =>
      cases ha : p a with
      | true =>
          rw [List.filter_cons_of_pos ha] at h
          obtain ⟨b, rest, hab, hrest, hfilter⟩ := List.forall₂_cons_left_iff.1 h
          exact both_of_filter hskip' hfilter (⟨ha, ·, hab⟩) fun later hlater => ih (hlater ▸ hrest)
      | false =>
          rw [List.filter_cons_of_neg (by simp [ha])] at h
          exact .left (hskip a ha) (ih h)

theorem imp (h : Aligned skip skip' rel l l') (himp : ∀ a b, rel a b → rel' a b) : Aligned skip skip' rel' l l' := by
  induction h with
  | nil => exact .nil
  | left ha _ ih => exact .left ha ih
  | right hb _ ih => exact .right hb ih
  | both hab _ ih => exact .both (himp _ _ hab) ih

/-- Numbering the items does not move them. -/
theorem zipIdx (h : Aligned skip skip' rel l l') (n n' : Nat) :
    Aligned (fun p => skip p.1) (fun p => skip' p.1) (fun p p' => rel p.1 p'.1) (l.zipIdx n) (l'.zipIdx n') := by
  induction h generalizing n n' with
  | nil => exact .nil
  | left ha _ ih => exact .left ha (ih (n + 1) n')
  | right hb _ ih => exact .right hb (ih n (n' + 1))
  | both hab _ ih => exact .both hab (ih (n + 1) (n' + 1))

end Aligned

theorem forall₂_of_map_eq {f : α → γ} {g : β → γ} (h : l'.map g = l.map f) :
    List.Forall₂ (fun a b => g b = f a) l l' := by
  rw [← List.forall₂_eq_eq_eq, List.forall₂_map_left_iff, List.forall₂_map_right_iff] at h
  exact h.flip

end Aligned

namespace ClassFile

variable {α α' β β' γ : Type} {a : α} {a' : α'} {x : Encoder α} {x' : Encoder α'} {f : α → Encoder β}
  {f' : α' → Encoder β'} {rel : α → α' → Prop} {rel' : β → β' → Prop}

/-- Where the first computation gives a result, the second one gives a related one and leaves the same pool. -/
def Repeats (x : Encoder α) (x' : Encoder α') (rel : α → α' → Prop) : Prop :=
  ∀ b a b', x.run b = .ok (a, b') → ∃ a', x'.run b = .ok (a', b') ∧ rel a a'

namespace Repeats

theorem refl (x : Encoder α) : Repeats x x Eq :=
  fun _ a _ hrun => ⟨a, hrun, rfl⟩

theorem imp {weaker : α → α' → Prop} (h : Repeats x x' rel) (himp : ∀ a a', rel a a' → weaker a a') :
    Repeats x x' weaker := by
  intro b a b' hrun
  obtain ⟨a', hrun', hrel⟩ := h b a b' hrun
  exact ⟨a', hrun', himp a a' hrel⟩

theorem pure (h : rel a a') : Repeats (Pure.pure a) (Pure.pure a') rel := by
  intro b r b' hrun
  cases hrun
  exact ⟨a', rfl, h⟩

theorem throw_bind {fault : EncodeFault} {y : Encoder β'} : Repeats (MonadExcept.throw fault >>= f) y rel' := by
  intro b r b' hrun
  cases hrun

theorem bind (h : Repeats x x' rel) (hnext : ∀ a a', rel a a' → Repeats (f a) (f' a') rel') :
    Repeats (x >>= f) (x' >>= f') rel' := by
  intro b r b'' hrun
  rw [StateT.run_bind] at hrun
  obtain ⟨⟨a, b'⟩, hx, hf⟩ := bind_eq_ok.1 hrun
  obtain ⟨a', hx', hrel⟩ := h b a b' hx
  obtain ⟨r', hf', hrel'⟩ := hnext a a' hrel b' r b'' hf
  refine ⟨r', ?_, hrel'⟩
  rw [StateT.run_bind]
  exact bind_eq_ok.2 ⟨(a', b'), hx', hf'⟩

/-- The same computation first. -/
theorem after (x : Encoder α) {g : α → Encoder β'} (hnext : ∀ a, Repeats (f a) (g a) rel') :
    Repeats (x >>= f) (x >>= g) rel' := by
  refine (refl x).bind ?_
  rintro a _ rfl
  exact hnext a

/-- The second computation has nothing to do after what it did. -/
theorem bind_left {rel' : β → α' → Prop} (h : Repeats x x' rel)
    (hnext : ∀ a a', rel a a' → Repeats (f a) (Pure.pure a') rel') : Repeats (x >>= f) x' rel' := by
  rw [← bind_pure x']
  exact h.bind hnext

theorem bind_right {rel' : α → β' → Prop} (h : Repeats x x' rel)
    (hnext : ∀ a a', rel a a' → Repeats (Pure.pure a) (f' a') rel') : Repeats x (x' >>= f') rel' := by
  rw [← bind_pure x]
  exact h.bind hnext

/-- The first computation begins with something that writes nothing. -/
theorem skip_left {p : α → Prop} {y : Encoder β'} (h : Repeats x (Pure.pure ()) fun a _ => p a)
    (hnext : ∀ a, p a → Repeats (f a) y rel') : Repeats (x >>= f) y rel' := by
  rw [← pure_bind () fun _ => y]
  exact h.bind fun a _ ha => hnext a ha

theorem skip_right {p : α' → Prop} {y : Encoder β} (h : Repeats (Pure.pure ()) x' fun _ a' => p a')
    (hnext : ∀ a', p a' → Repeats y (f' a') rel') : Repeats y (x' >>= f') rel' := by
  rw [← pure_bind () fun _ => y]
  exact h.bind fun _ a' ha' => hnext a' ha'

theorem lift {result result' : Except EncodeFault α}
    (h : ∀ a, result = .ok a → result' = .ok a) : Repeats (liftM result) (liftM result') Eq := by
  intro b a b' hrun
  cases result with
  | error fault => cases hrun
  | ok value =>
      rw [h value rfl]
      exact ⟨a, hrun, rfl⟩

/-- The first computation begins with a result. -/
theorem lift_left {result : Except EncodeFault α} {y : Encoder β'}
    (h : ∀ a, result = .ok a → Repeats (f a) y rel') : Repeats (liftM result >>= f) y rel' := by
  cases result with
  | error fault => exact throw_bind
  | ok a => exact h a rfl

theorem mapError {wrap wrap' : EncodeFault → EncodeFault} (h : Repeats x x' rel) :
    Repeats (fun b => (x b).mapError wrap) (fun b => (x' b).mapError wrap') rel := by
  intro b a b' hrun
  obtain ⟨a', hrun', hrel⟩ := h b a b' (mapError_eq_ok.1 hrun)
  exact ⟨a', mapError_eq_ok.2 hrun', hrel⟩

/-- Related items, one after another. -/
theorem mapM {items : List α} {items' : List α'} {g : α → Encoder β} {g' : α' → Encoder β}
    (hitems : List.Forall₂ rel items items') (h : ∀ a a', rel a a' → Repeats (g a) (g' a') Eq) :
    Repeats (items.mapM g) (items'.mapM g') Eq := by
  induction hitems with
  | nil => exact refl _
  | cons hfirst _ ih =>
      rw [List.mapM_cons, List.mapM_cons]
      refine (h _ _ hfirst).bind ?_
      rintro first _ rfl
      refine ih.bind ?_
      rintro rest _ rfl
      exact refl _

/-- Items that write the same, one after another, between items that write nothing. -/
theorem mapM_aligned {skip : α → Prop} {skip' : α' → Prop} {items : List α} {items' : List α'}
    (hitems : Aligned skip skip' rel items items') (written : β → List γ) (written' : β' → List γ)
    (hskip : ∀ a, skip a → Repeats (f a) (Pure.pure ()) fun r _ => written r = [])
    (hskip' : ∀ a', skip' a' → Repeats (Pure.pure ()) (f' a') fun _ r' => written' r' = [])
    (hrel : ∀ a a', rel a a' → Repeats (f a) (f' a') fun r r' => written' r' = written r) :
    Repeats (items.mapM f) (items'.mapM f') fun r r' => r'.flatMap written' = r.flatMap written := by
  induction hitems with
  | nil => exact pure rfl
  | left ha _ ih =>
      rw [List.mapM_cons]
      refine (hskip _ ha).skip_left fun first hfirst => ?_
      refine ih.bind_left fun rest rest' hrest => pure ?_
      rw [List.flatMap_cons, hfirst, List.nil_append, hrest]
  | right hb _ ih =>
      rw [List.mapM_cons]
      refine (hskip' _ hb).skip_right fun first' hfirst => ?_
      refine ih.bind_right fun rest rest' hrest => pure ?_
      rw [List.flatMap_cons, hfirst, List.nil_append, hrest]
  | both hab _ ih =>
      rw [List.mapM_cons, List.mapM_cons]
      refine (hrel _ _ hab).bind fun first first' hfirst => ?_
      refine ih.bind fun rest rest' hrest => pure ?_
      rw [List.flatMap_cons, List.flatMap_cons, hfirst, hrest]

end Repeats

end ClassFile

end Unscramble
