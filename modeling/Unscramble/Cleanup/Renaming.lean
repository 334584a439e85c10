/-
Renaming.  Classes, methods and fields with names as short as an obfuscator makes them get numbered names.
A method or field shares its new name with all subtypes of the class that declares it.
-/
import Unscramble.Class.Hierarchy
import Unscramble.Descriptor.Query
import Unscramble.Log

namespace Unscramble

/-- New names by old identities; of several entries for one identity the first counts. -/
structure Renaming where
  classes : List (String × String)
  methods : List (String × String)
  fields : List (String × String)
deriving DecidableEq, Repr

namespace Renaming

/-- Whether a name is as short as an obfuscator makes it. -/
def isShort (name : String) : Bool :=
  name.utf8ByteSize ≤ 2

/-- Whether the name of a method is as short as an obfuscator makes it. -/
def isShortMethod (name : String) : Bool :=
  isShort name || (name.utf8ByteSize == 3 && name.startsWith "aa")

/-- Whether a super type in the pool satisfies a condition. -/
def anySuper (pool : ClassPool) (name : String) (declares : ClassDecl → Bool) : Bool :=
  (pool.allSupers name).any fun ancestor => (pool.get? ancestor).any declares

/-- Whether a method gets a new name: not if it is a constructor or native, or declared higher up. -/
def renamesMethod (pool : ClassPool) (c : ClassDecl) (m : MethodDecl) : Bool :=
  isShortMethod m.name && !m.name.contains '<' && !m.isNative &&
    !anySuper pool c.name fun ancestor => (ancestor.method? m.name m.descriptor).isSome

/-- Whether a field gets a new name: not if it is declared higher up. -/
def renamesField (pool : ClassPool) (c : ClassDecl) (f : FieldDecl) : Bool :=
  isShort f.name &&
    !anySuper pool c.name fun ancestor => (ancestor.field? f.name f.descriptor).isSome

/-- The methods that get new names, with their classes. -/
def renamedMethods (pool : ClassPool) : List (ClassDecl × MethodDecl) :=
  pool.methods.filter fun (c, m) => renamesMethod pool c m

/-- The fields that get new names, with their classes. -/
def renamedFields (pool : ClassPool) : List (ClassDecl × FieldDecl) :=
  pool.classes.flatMap fun c => (c.fields.filter (renamesField pool c)).map (c, ·)

/-- Numbered new names for the classes, methods and fields with short names.  A later method or field
overrides an earlier one. -/
def ofPool (pool : ClassPool) : Renaming where
  classes := ((pool.names.filter isShort).zipIdx 1).map fun (name, k) => (name, s!"class{k}")
  methods := (((renamedMethods pool).zipIdx 1).flatMap fun ((c, m), k) =>
    (pool.withSubclasses c.name).map fun owner =>
      ((MemberRef.mk owner m.name m.descriptor).methodKey, s!"method{k}")).reverse
  fields := (((renamedFields pool).zipIdx 1).flatMap fun ((c, f), k) =>
    (pool.withSubclasses c.name).map fun owner =>
      ((MemberRef.mk owner f.name f.descriptor).fieldKey, s!"field{k}")).reverse

/-- The new form of a descriptor. -/
def descriptor (r : Renaming) (text : String) : String :=
  Descriptor.mapNames (fun name => r.classes.lookup name) text

/-- The new name of a class; that of an array class is a descriptor. -/
def className (r : Renaming) (name : String) : String :=
  if name.startsWith "[" then r.descriptor name else (r.classes.lookup name).getD name

/-- The new form of a reference to a method. -/
def methodRef (r : Renaming) (ref : MemberRef) : MemberRef where
  owner := r.className ref.owner
  name := (r.methods.lookup ref.methodKey).getD ref.name
  descriptor := r.descriptor ref.descriptor

/-- The new form of a reference to a field. -/
def fieldRef (r : Renaming) (ref : MemberRef) : MemberRef where
  owner := r.className ref.owner
  name := (r.fields.lookup ref.fieldKey).getD ref.name
  descriptor := r.descriptor ref.descriptor

def instr (r : Renaming) : Instr → Instr
  | .type op name => .type op (r.className name)
  | .multiNewArray text dims => .multiNewArray (r.descriptor text) dims
  | .ldc (.classRef name) => .ldc (.classRef (r.className name))
  | .field op ref => .field op (r.fieldRef ref)
  | .method op ref onInterface => .method op (r.methodRef ref) onInterface
  | other => other

def tryBlock (r : Renaming) (block : TryBlock) : TryBlock :=
  { block with catchType := block.catchType.map r.className }

/-- The new form of a method of the class with this old name. -/
def method (r : Renaming) (owner : String) (m : MethodDecl) : MethodDecl :=
  let ref := r.methodRef ⟨owner, m.name, m.descriptor⟩
  { m with
    name := ref.name
    descriptor := ref.descriptor
    throws := m.throws.map r.className
    tries := m.tries.map r.tryBlock
    code := m.code.map r.instr }

/-- The new form of a field of the class with this old name. -/
def field (r : Renaming) (owner : String) (f : FieldDecl) : FieldDecl :=
  let ref := r.fieldRef ⟨owner, f.name, f.descriptor⟩
  { f with name := ref.name, descriptor := ref.descriptor }

def classDecl (r : Renaming) (c : ClassDecl) : ClassDecl :=
  { c with
    name := r.className c.name
    superName := c.superName.map r.className
    interfaces := c.interfaces.map r.className
    fields := c.fields.map (r.field c.name)
    methods := c.methods.map (r.method c.name) }

/-- The program under new names.  Of classes with the same new name the last one counts. -/
def pool (r : Renaming) (pool : ClassPool) : ClassPool :=
  ClassPool.ofList (pool.classes.map r.classDecl)

end Renaming

/-- Gives new names to what has short names and counts the new names. -/
def ClassPool.rename {ε : Type} (pool : ClassPool) : Logged ε (ClassPool × Nat) := do
  let r := Renaming.ofPool pool
  let classes := r.classes.length
  let methods := (Renaming.renamedMethods pool).length
  let fields := (Renaming.renamedFields pool).length
  Logged.info s!"Renamed [classes: {classes}, methods: {methods}, fields: {fields}]."
  pure (r.pool pool, classes + methods + fields)

end Unscramble
