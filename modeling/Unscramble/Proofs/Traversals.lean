/-
Changing all methods of a program one after the other, with reports.  What such a computation gives if it does not fail,
and which result it yields whatever was reported before, follow from what it does to each method.
-/
import Unscramble.Log
import Unscramble.Proofs.Hierarchy

namespace Unscramble

namespace Logged

variable {ε δ α β : Type} {act : Logged ε α} {f : α → Logged ε β} {post : α → Prop} {post' : β → Prop} {a : α} {b : β}

/-- What the computation gives, if it does not fail. -/
def Gives (act : Logged ε α) (post : α → Prop) : Prop :=
  ∀ log a log', act log = .ok a log' → post a

namespace Gives

theorem any (act : Logged ε α) : act.Gives fun _ => True :=
  fun _ _ _ _ => trivial

theorem pure {a : α} (h : post a) : Gives (Pure.pure a : Logged ε α) post := by
  intro log a' log' heq
  cases heq
  exact h

theorem bind (h : act.Gives post) (hnext : ∀ a, post a → (f a).Gives post') : Gives (act >>= f) post' := by
  intro log b log' heq
  change EStateM.bind act f log = _ at heq
  unfold EStateM.bind at heq
  split at heq
  · next a middle hact => exact hnext a (h log a middle hact) middle b log' heq
  · cases heq

theorem ofExcept {wrap : ε → δ} {result : Except ε α} (h : ∀ a, result = .ok a → post a) :
    Gives (Logged.ofExcept wrap result) post := by
  cases result with
  | ok a => exact .pure (h a rfl)
  | error e => exact fun _ _ _ heq => by cases heq

theorem within {wrap : ε → δ} (h : act.Gives post) : (Logged.within wrap act).Gives post := by
  intro log a log' heq
  unfold Logged.within at heq
  split at heq
  · next hact =>
      cases heq
      exact h log a log' hact
  · cases heq

theorem mapM {items : List α} (h : ∀ a ∈ items, (f a).Gives post') :
    Gives (items.mapM f) fun results => ∀ b ∈ results, post' b := by
  induction items with
  | nil => exact .pure nofun
  | cons a rest ih =>
      rw [List.mapM_cons]
      refine (h a List.mem_cons_self).bind fun b hb => ?_
      refine (ih fun a' ha' => h a' (List.mem_cons_of_mem a ha')).bind fun others hothers => ?_
      exact .pure (List.forall_mem_cons.2 ⟨hb, hothers⟩)

theorem of_run {lines : List LogLine} {a : α} (h : act.Gives post) (hrun : act.run = (lines, .ok a)) : post a := by
  obtain ⟨log, hact⟩ := run_eq_ok.1 (congrArg Prod.snd hrun)
  exact h [] a log hact

end Gives

/-- The computation gives this result, whatever was reported before. -/
def Yields (act : Logged ε α) (a : α) : Prop :=
  ∀ log, ∃ log', act log = .ok a log'

namespace Yields

theorem pure (a : α) : Yields (Pure.pure a : Logged ε α) a :=
  fun log => ⟨log, rfl⟩

theorem note (level : Level) (text : String) : Yields (Logged.note level text : Logged ε Unit) () :=
  fun log => ⟨⟨level, text⟩ :: log, rfl⟩

theorem bind (h : act.Yields a) (hnext : (f a).Yields b) : Yields (act >>= f) b := by
  intro log
  obtain ⟨middle, hmiddle⟩ := h log
  obtain ⟨log', hlog'⟩ := hnext middle
  refine ⟨log', ?_⟩
  change EStateM.bind act f log = _
  rw [EStateM.bind, hmiddle]
  exact hlog'

theorem within {wrap : ε → δ} (h : act.Yields a) : (Logged.within wrap act).Yields a := by
  intro log
  obtain ⟨log', hlog'⟩ := h log
  exact ⟨log', by rw [Logged.within, hlog']⟩

theorem forM {items : List β} {g : β → Logged ε Unit} (h : ∀ item ∈ items, (g item).Yields ()) :
    Yields (items.forM g) () := by
  induction items with
  | nil => exact .pure ()
  | cons item rest ih =>
      obtain ⟨hfirst, hrest⟩ := List.forall_mem_cons.1 h
      exact hfirst.bind (ih hrest)

theorem mapM {g : α → β} {items : List α} (h : ∀ item ∈ items, (f item).Yields (g item)) :
    Yields (items.mapM f) (items.map g) := by
  induction items with
  | nil => exact .pure []
  | cons item rest ih =>
      obtain ⟨hfirst, hrest⟩ := List.forall_mem_cons.1 h
      rw [List.mapM_cons]
      exact hfirst.bind ((ih hrest).bind (.pure _))

/-- Steps that yield a result and keep a property of it, one after the other. -/
theorem exists_foldlM {g : β → α → Logged ε β} {items : List α} {b : β}
    (h : ∀ item ∈ items, ∀ b, post' b → ∃ b', (g b item).Yields b' ∧ post' b') (hb : post' b) :
    ∃ b', (items.foldlM g b).Yields b' ∧ post' b' := by
  induction items generalizing b with
  | nil => exact ⟨b, .pure b, hb⟩
  | cons item rest ih =>
      obtain ⟨hfirst, hrest⟩ := List.forall_mem_cons.1 h
      obtain ⟨middle, hmiddle, hpost⟩ := hfirst b hb
      obtain ⟨last, hlast, hpost'⟩ := ih hrest hpost
      exact ⟨last, hmiddle.bind hlast, hpost'⟩

theorem exists_run (h : act.Yields a) : ∃ lines, act.run = (lines, .ok a) := by
  obtain ⟨log, hlog⟩ := h []
  exact ⟨log.reverse, by rw [Logged.run, EStateM.run, hlog]⟩

end Yields

end Logged

namespace ClassPool

variable {ε ρ : Type} {P Q : MethodDecl → Prop} {pool : ClassPool} {g : MethodDecl → MethodDecl} {r : ρ}
  {f : ClassDecl → MethodDecl → Logged ε (MethodDecl × ρ)}

/-- All methods of the program have the property. -/
def All (P : MethodDecl → Prop) (pool : ClassPool) : Prop :=
  ∀ c ∈ pool.classes, ∀ m ∈ c.methods, P m

theorem all_mapMethods {f : ClassDecl → MethodDecl → MethodDecl} (hf : ∀ c m, P m → Q (f c m)) (h : pool.All P) :
    (pool.mapMethods f).All Q := by
  intro c' hc' m' hm'
  obtain ⟨c, hc, rfl⟩ := List.mem_map.1 hc'
  obtain ⟨m, hm, rfl⟩ := List.mem_map.1 hm'
  exact hf c m (h c hc m hm)

theorem gives_traverseClasses (hf : ∀ c m, P m → (f c m).Gives fun r => Q r.1) {classes : List ClassDecl}
    (h : ∀ c ∈ classes, ∀ m ∈ c.methods, P m) :
    (traverseClasses f classes).Gives fun r => ∀ c ∈ r.1.1, ∀ m ∈ c.methods, Q m := by
  induction classes with
  | nil => exact .pure nofun
  | cons c rest ih =>
      obtain ⟨hfirst, hrest⟩ := List.forall_mem_cons.1 h
      refine (Logged.Gives.mapM fun m hm => hf c m (hfirst m hm)).bind fun changed hchanged => ?_
      refine (ih hrest).bind ?_
      rintro ⟨⟨tail, htail⟩, reports⟩ hothers
      refine .pure (List.forall_mem_cons.2 ⟨fun m hm => ?_, hothers⟩)
      obtain ⟨r, hr, rfl⟩ := List.mem_map.1 hm
      exact hchanged r hr

/-- A change of every method, with a report at the end, does to all methods what it does to each. -/
theorem gives_traverseMethods {report : ClassPool × List ρ → Logged ε (ClassPool × Nat)} (h : pool.All P)
    (hf : ∀ c m, P m → (f c m).Gives fun r => Q r.1) (hreport : ∀ r, (report r).Gives fun r' => r'.1 = r.1) :
    Logged.Gives (pool.traverseMethods f >>= report) fun r => r.1.All Q := by
  have htraverse : (pool.traverseMethods f).Gives fun r => r.1.All Q := by
    refine (gives_traverseClasses hf h).bind ?_
    rintro ⟨⟨classes, hclasses⟩, reports⟩ hall
    exact .pure hall
  refine htraverse.bind fun r hr log r' log' heq => ?_
  rw [hreport r log r' log' heq]
  exact hr

theorem yields_traverseClasses {classes : List ClassDecl}
    (h : ∀ c ∈ classes, ∀ m ∈ c.methods, (f c m).Yields (g m, r)) :
    ∃ hnames, (traverseClasses f classes).Yields
      (⟨classes.map fun c => { c with methods := c.methods.map g }, hnames⟩,
        (classes.flatMap ClassDecl.methods).map fun _ => r) := by
  induction classes with
  | nil => exact ⟨rfl, .pure _⟩
  | cons c rest ih =>
      obtain ⟨hfirst, hrest⟩ := List.forall_mem_cons.1 h
      obtain ⟨hnames, hothers⟩ := ih hrest
      refine ⟨by simp, (Logged.Yields.mapM hfirst).bind (hothers.bind ?_)⟩
      simp only [List.map_map, Function.comp_def, List.map_cons, List.flatMap_cons, List.map_append]
      exact .pure _

/-- A change of every method that depends on the method only, with the same report for all. -/
theorem yields_traverseMethods
    (h : ∀ placed ∈ pool.methods, (f placed.1 placed.2).Yields (g placed.2, r)) :
    (pool.traverseMethods f).Yields (pool.mapMethods fun _ => g, pool.methods.map fun _ => r) := by
  have hclasses : ∀ c ∈ pool.classes, ∀ m ∈ c.methods, (f c m).Yields (g m, r) :=
    fun c hc m hm => h (c, m) (mem_methods.2 ⟨hc, hm⟩)
  obtain ⟨hnames, htraverse⟩ := yields_traverseClasses hclasses
  have hreports : (pool.classes.flatMap ClassDecl.methods).map (fun _ => r) = pool.methods.map fun _ => r := by
    simp only [methods, List.map_flatMap, List.map_map, Function.comp_def]
  rw [← hreports]
  exact htraverse.bind (.pure _)

theorem mapMethods_id (pool : ClassPool) : (pool.mapMethods fun _ => id) = pool := by
  rcases pool with ⟨classes, ordered⟩
  simp [mapMethods, map]

/-- A change that leaves every method as it is leaves the program as it is. -/
theorem yields_traverseMethods_same (h : ∀ placed ∈ pool.methods, (f placed.1 placed.2).Yields (placed.2, r)) :
    (pool.traverseMethods f).Yields (pool, pool.methods.map fun _ => r) := by
  have htraverse := yields_traverseMethods (g := id) h
  rwa [mapMethods_id] at htraverse

end ClassPool

end Unscramble
