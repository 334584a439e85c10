/-
The classes of a program, each under its name and in the order of names.  Questions about the
hierarchy are answered by name alone, so a super type need not be part of the pool.
-/
import Unscramble.Class.Basic

namespace Unscramble

/-- A finite set of classes with pairwise different names, in the order of names. -/
structure ClassPool where
  classes : List ClassDecl
  ordered : (classes.map ClassDecl.name).Pairwise (· < ·)

/-- Puts a class into an ordered list, in place of one of the same name. -/
def insertClass (c : ClassDecl) : List ClassDecl → List ClassDecl
  | [] => [c]
  | d :: rest =>
      if c.name < d.name then c :: d :: rest
      else if c.name = d.name then c :: rest
      else d :: insertClass c rest

theorem mem_names_insertClass {c : ClassDecl} {l : List ClassDecl} {name : String}
    (h : name ∈ (insertClass c l).map ClassDecl.name) :
    name = c.name ∨ name ∈ l.map ClassDecl.name := by
  induction l with
  | nil => simpa [insertClass] using h
  | cons d rest ih =>
      simp only [insertClass] at h
      split at h
      · simpa using h
      · split at h
        · simp only [List.map_cons, List.mem_cons] at h ⊢
          rcases h with h | h
          · exact Or.inl h
          · exact Or.inr (Or.inr h)
        · simp only [List.map_cons, List.mem_cons] at h ⊢
          rcases h with h | h
          · exact Or.inr (Or.inl h)
          · rcases ih h with h | h
            · exact Or.inl h
            · exact Or.inr (Or.inr h)

theorem insertClass_ordered (c : ClassDecl) (l : List ClassDecl)
    (h : (l.map ClassDecl.name).Pairwise (· < ·)) :
    ((insertClass c l).map ClassDecl.name).Pairwise (· < ·) := by
  induction l with
  | nil => simp [insertClass]
  | cons d rest ih =>
      simp only [List.map_cons, List.pairwise_cons] at h
      obtain ⟨hd, hrest⟩ := h
      simp only [insertClass]
      split
      · next hlt =>
          simp only [List.map_cons, List.pairwise_cons]
          refine ⟨fun name hname => ?_, hd, hrest⟩
          rcases List.mem_cons.1 hname with rfl | hname
          · exact hlt
          · exact String.lt_trans hlt (hd name hname)
      · next hlt =>
          split
          · next heq =>
              simp only [List.map_cons, List.pairwise_cons]
              exact ⟨heq ▸ hd, hrest⟩
          · next hne =>
              simp only [List.map_cons, List.pairwise_cons]
              refine ⟨fun name hname => ?_, ih hrest⟩
              rcases mem_names_insertClass hname with rfl | hname
              · rcases Std.lt_trichotomy c.name d.name with h | h | h
                · exact absurd h hlt
                · exact absurd h hne
                · exact h
              · exact hd name hname

namespace ClassPool

/-- The pool without classes. -/
def empty : ClassPool :=
  ⟨[], .nil⟩

instance : Inhabited ClassPool := ⟨empty⟩

/-- Adds a class; one of the same name is replaced. -/
def insert (c : ClassDecl) (pool : ClassPool) : ClassPool :=
  ⟨insertClass c pool.classes, insertClass_ordered c pool.classes pool.ordered⟩

def ofList (classes : List ClassDecl) : ClassPool :=
  classes.foldl (fun pool c => pool.insert c) empty

/-- Removes the class of this name. -/
def erase (name : String) (pool : ClassPool) : ClassPool where
  classes := pool.classes.filter (·.name != name)
  ordered := pool.ordered.sublist (List.filter_sublist.map _)

def get? (name : String) (pool : ClassPool) : Option ClassDecl :=
  pool.classes.find? (·.name == name)

def contains (name : String) (pool : ClassPool) : Bool :=
  pool.classes.any (·.name == name)

def size (pool : ClassPool) : Nat :=
  pool.classes.length

def names (pool : ClassPool) : List String :=
  pool.classes.map ClassDecl.name

/-- All classes with their methods, in order. -/
def methods (pool : ClassPool) : List (ClassDecl × MethodDecl) :=
  pool.classes.flatMap fun c => c.methods.map (c, ·)

/-- All instructions of all methods, in order. -/
def instrs (pool : ClassPool) : List Instr :=
  pool.methods.flatMap fun (_, m) => m.code

/-- Changes every class but not its name. -/
def map (f : ClassDecl → ClassDecl) (keeps : ∀ c, (f c).name = c.name) (pool : ClassPool) :
    ClassPool where
  classes := pool.classes.map f
  ordered := by
    have h : ClassDecl.name ∘ f = ClassDecl.name := funext keeps
    rw [List.map_map, h]
    exact pool.ordered

@[simp] theorem names_map (f : ClassDecl → ClassDecl) (keeps : ∀ c, (f c).name = c.name)
    (pool : ClassPool) : (pool.map f keeps).names = pool.names := by
  simp only [names, map, List.map_map]
  exact List.map_congr_left fun c _ => keeps c

/-- Changes the members of every class. -/
def mapMembers (fields : ClassDecl → List FieldDecl) (methods : ClassDecl → List MethodDecl)
    (pool : ClassPool) : ClassPool :=
  pool.map (fun c => { c with fields := fields c, methods := methods c }) fun _ => rfl

/-- Changes every method. -/
def mapMethods (f : ClassDecl → MethodDecl → MethodDecl) (pool : ClassPool) : ClassPool :=
  pool.map (fun c => { c with methods := c.methods.map (f c) }) fun _ => rfl

section Traversal

variable {m : Type → Type} [Monad m] {ρ : Type}

/-- Changes the methods of each class in turn and collects what the changes report.  The names of
the classes stay. -/
def traverseClasses (f : ClassDecl → MethodDecl → m (MethodDecl × ρ)) :
    (l : List ClassDecl) →
      m ({ r : List ClassDecl // r.map ClassDecl.name = l.map ClassDecl.name } × List ρ)
  | [] => pure (⟨[], rfl⟩, [])
  | c :: rest => do
      let changed ← c.methods.mapM (f c)
      let (⟨tail, htail⟩, reports) ← traverseClasses f rest
      pure (⟨{ c with methods := changed.map (·.1) } :: tail, by simp [htail]⟩,
        changed.map (·.2) ++ reports)

/-- Changes every method in turn and collects what the changes report, in the order of methods. -/
def traverseMethods (f : ClassDecl → MethodDecl → m (MethodDecl × ρ)) (pool : ClassPool) :
    m (ClassPool × List ρ) := do
  let (⟨classes, h⟩, reports) ← traverseClasses f pool.classes
  pure (⟨classes, h ▸ pool.ordered⟩, reports)

end Traversal

/-- The direct super types of a class of the pool: the super class first, then the interfaces. -/
def directSupers (pool : ClassPool) (name : String) : List String :=
  match pool.get? name with
  | some c => c.supers
  | none => []

/-- The classes of the pool that extend or implement `name` directly. -/
def directSubs (pool : ClassPool) (name : String) : List String :=
  (pool.classes.filter fun c => c.supers.contains name).map ClassDecl.name

end ClassPool

end Unscramble
