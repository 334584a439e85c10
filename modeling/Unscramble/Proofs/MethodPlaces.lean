/-
Methods by their places.  Changing the method at one place keeps the shape of the pool and all other methods, and so a
run of changes leaves at each place what the changes at this place make of the method.
-/
import Unscramble.Cleanup.TrailingInts
import Unscramble.Proofs.Hierarchy
import Unscramble.Proofs.Results

namespace Unscramble.ClassPool

variable {pool pool' after : ClassPool} {p place : MethodPlace} {m : MethodDecl}

theorem mem_placedMethods : (p, m) ∈ pool.placedMethods ↔ pool.methodAt? p = some m := by
  simp only [placedMethods, methodAt?, List.mem_flatMap, List.mem_map, Option.bind_eq_some_iff]
  constructor
  · rintro ⟨c, hc, ⟨m', index⟩, hmem, heq⟩
    obtain ⟨rfl, rfl⟩ := Prod.mk.inj heq
    exact ⟨c, get?_eq_some.2 ⟨hc, rfl⟩, List.mem_zipIdx_iff_getElem?.1 hmem⟩
  · rintro ⟨c, hget, hindex⟩
    obtain ⟨hc, hname⟩ := get?_eq_some.1 hget
    exact ⟨c, hc, (m, p.index), List.mem_zipIdx_iff_getElem?.2 hindex, by rw [hname]⟩

/-- No place is listed twice. -/
theorem nodup_placedMethods (pool : ClassPool) : (pool.placedMethods.map Prod.fst).Nodup := by
  have hplaces : pool.placedMethods.map Prod.fst = pool.classes.flatMap fun c =>
      (List.range' 0 c.methods.length).map (MethodPlace.mk c.name) := by
    rw [placedMethods, List.map_flatMap]
    congr 1
    funext c
    rw [← List.zipIdx_map_snd, List.map_map, List.map_map]
    rfl
  rw [hplaces, List.nodup_flatMap]
  refine ⟨fun c _ => List.Nodup.map (fun i j heq => (MethodPlace.mk.inj heq).2) List.nodup_range', ?_⟩
  refine (List.pairwise_map.1 pool.ordered).imp fun {c d} hlt place hfirst hsecond => ?_
  obtain ⟨_, _, rfl⟩ := List.mem_map.1 hfirst
  obtain ⟨_, _, heq⟩ := List.mem_map.1 hsecond
  rw [(MethodPlace.mk.inj heq).1] at hlt
  exact String.lt_irrefl _ hlt

/-- Changing every method in the same way changes the method at each place. -/
theorem methodAt?_mapMethods (f : MethodDecl → MethodDecl) (pool : ClassPool) (p : MethodPlace) :
    (pool.mapMethods fun _ => f).methodAt? p = (pool.methodAt? p).map f := by
  rw [methodAt?, methodAt?, get?_mapMethods]
  cases pool.get? p.owner with
  | none => rfl
  | some c => exact List.getElem?_map

/-- Two pools have the same classes, each with the same super types and as many methods. -/
structure SameShape (pool pool' : ClassPool) : Prop where
  names : pool'.names = pool.names
  classes : ∀ name, (pool'.get? name).map (fun c => (c.supers, c.methods.length)) =
    (pool.get? name).map fun c => (c.supers, c.methods.length)

namespace SameShape

theorem refl (pool : ClassPool) : SameShape pool pool :=
  ⟨rfl, fun _ => rfl⟩

theorem trans (h : SameShape pool pool') (h' : SameShape pool' after) : SameShape pool after :=
  ⟨h'.names.trans h.names, fun name => (h'.classes name).trans (h.classes name)⟩

theorem size (h : SameShape pool pool') : pool'.size = pool.size := by
  simpa [ClassPool.size, ClassPool.names] using congrArg List.length h.names

/-- A class is in neither pool, or in both with the same super types and as many methods. -/
theorem get?_cases (h : SameShape pool pool') (name : String) :
    pool.get? name = none ∧ pool'.get? name = none ∨ ∃ c c', pool.get? name = some c ∧ pool'.get? name = some c' ∧
      c'.supers = c.supers ∧ c'.methods.length = c.methods.length := by
  have hclass := h.classes name
  cases hget : pool.get? name with
  | none =>
      rw [hget, Option.map_none, Option.map_eq_none_iff] at hclass
      exact .inl ⟨rfl, hclass⟩
  | some c =>
      rw [hget, Option.map_some, Option.map_eq_some_iff] at hclass
      obtain ⟨c', hget', heq⟩ := hclass
      exact .inr ⟨c, c', rfl, hget', Prod.mk.inj heq⟩

theorem directSupers (h : SameShape pool pool') (name : String) :
    pool'.directSupers name = pool.directSupers name := by
  rw [ClassPool.directSupers, ClassPool.directSupers]
  rcases h.get?_cases name with ⟨hget, hget'⟩ | ⟨c, c', hget, hget', hsupers, -⟩
  · rw [hget, hget']
  · rw [hget, hget']
    exact hsupers

/-- A method stands at a place of the one pool exactly if one stands there in the other. -/
theorem isSome_methodAt? (h : SameShape pool pool') (p : MethodPlace) :
    (pool'.methodAt? p).isSome = (pool.methodAt? p).isSome := by
  rw [methodAt?, methodAt?]
  rcases h.get?_cases p.owner with ⟨hget, hget'⟩ | ⟨c, c', hget, hget', -, hlength⟩
  · rw [hget, hget']
  · rw [hget, hget', Option.bind_some, Option.bind_some]
    by_cases hlt : p.index < c.methods.length
    · simp [hlt, hlength]
    · simp [List.getElem?_eq_none (Nat.le_of_not_lt hlt), List.getElem?_eq_none (hlength ▸ Nat.le_of_not_lt hlt)]

end SameShape

theorem sameShape_setMethod (pool : ClassPool) (place : MethodPlace) (m : MethodDecl) :
    SameShape pool (pool.setMethod place m) := by
  refine ⟨names_map .., fun name => ?_⟩
  rw [setMethod, get?_map, Option.map_map]
  congr 1
  funext c
  simp only [Function.comp_apply, Prod.mk.injEq]
  refine ⟨rfl, ?_⟩
  split
  · exact List.length_set
  · rfl

theorem methodAt?_setMethod (pool : ClassPool) (place : MethodPlace) (m : MethodDecl) (p : MethodPlace) :
    (pool.setMethod place m).methodAt? p =
      if p = place then (pool.methodAt? p).map fun _ => m else pool.methodAt? p := by
  rw [methodAt?, methodAt?, setMethod, get?_map]
  cases hget : pool.get? p.owner with
  | none => simp
  | some c =>
      obtain ⟨-, hname⟩ := get?_eq_some.1 hget
      simp only [Option.map_some, Option.bind_some, hname]
      obtain ⟨owner, index⟩ := p
      obtain ⟨owner', index'⟩ := place
      by_cases howner : owner = owner'
      · subst howner
        by_cases hindex : index = index'
        · subst hindex
          by_cases hlt : index < c.methods.length <;> simp [hlt]
        · simp [hindex, Ne.symm hindex]
      · simp [howner]

/-- What one change does. -/
theorem changeMethod_eq_ok {ε : Type} {change : MethodDecl → Except ε MethodDecl}
    (h : pool.changeMethod place change = .ok pool') :
    SameShape pool pool' ∧ (∀ p, p ≠ place → pool'.methodAt? p = pool.methodAt? p) ∧
      ∀ m, pool.methodAt? place = some m → ∃ m', change m = .ok m' ∧ pool'.methodAt? place = some m' := by
  rw [changeMethod] at h
  cases hat : pool.methodAt? place with
  | none =>
      rw [hat] at h
      obtain rfl := Except.ok.inj h
      exact ⟨.refl pool, fun _ _ => rfl, nofun⟩
  | some m =>
      rw [hat] at h
      obtain ⟨m', hm', rfl⟩ := map_eq_ok.1 h
      refine ⟨sameShape_setMethod pool place m', fun p hp => ?_, fun n hn => ?_⟩
      · rw [methodAt?_setMethod, if_neg hp]
      · obtain rfl := Option.some.inj hn
        exact ⟨m', hm', by rw [methodAt?_setMethod, if_pos rfl, hat, Option.map_some]⟩

/-- Changes of different methods leave each with its own change. -/
theorem foldlM_changeMethod_eq_ok {ε α : Type} {placeOf : α → MethodPlace} {items : List α}
    {change : MethodDecl → Except ε MethodDecl} (hnodup : (items.map placeOf).Nodup)
    (h : items.foldlM (fun pool item => pool.changeMethod (placeOf item) change) pool = .ok after) :
    SameShape pool after ∧ (∀ p, p ∉ items.map placeOf → after.methodAt? p = pool.methodAt? p) ∧
      ∀ p ∈ items.map placeOf, ∀ m, pool.methodAt? p = some m →
        ∃ m', change m = .ok m' ∧ after.methodAt? p = some m' := by
  induction items generalizing pool with
  | nil =>
      obtain rfl := Except.ok.inj h
      exact ⟨.refl pool, fun _ _ => rfl, nofun⟩
  | cons item rest ih =>
      rw [List.foldlM_cons] at h
      obtain ⟨changed, hchanged, h⟩ := bind_eq_ok.1 h
      obtain ⟨hshape, hothers, hself⟩ := changeMethod_eq_ok hchanged
      rw [List.map_cons, List.nodup_cons] at hnodup
      obtain ⟨hshape', hothers', hself'⟩ := ih hnodup.2 h
      refine ⟨hshape.trans hshape', fun p hp => ?_, fun p hp m hm => ?_⟩
      · rw [List.map_cons, List.mem_cons, not_or] at hp
        rw [hothers' p hp.2, hothers p hp.1]
      · rcases List.mem_cons.1 hp with rfl | hp
        · rw [hothers' _ hnodup.1]
          exact hself m hm
        · have hne : p ≠ placeOf item := fun heq => hnodup.1 (heq ▸ hp)
          exact hself' p hp m (by rw [hothers p hne, hm])

end Unscramble.ClassPool
