/-
The order of members: fields by how they would be declared in source code, methods by the line on which
they start.
-/
import Unscramble.Class.Pool
import Unscramble.Descriptor.Query
import Unscramble.Log

namespace Unscramble

/-- The modifiers of a field in the order of source code. -/
def fieldModifiers : List (Access × String) :=
  [ (Access.publicBit, "public"), (Access.protectedBit, "protected"),
    (Access.privateBit, "private"), (Access.staticBit, "static"), (Access.finalBit, "final"),
    (Access.transientBit, "transient"), (Access.volatileBit, "volatile") ]

namespace FieldDecl

/-- The modifiers as source code spells them. -/
def modifiers (f : FieldDecl) : String :=
  " ".intercalate ((fieldModifiers.filter fun (bit, _) => f.access.has bit).map (·.2))

/-- Static fields come first; then fields are ordered by modifiers, type and name. -/
def sourceOrder : FieldDecl → FieldDecl → Ordering :=
  compareLex (compareOn fun f => !f.isStatic) <|
    compareLex (compareOn modifiers) <|
      compareLex (compareOn fun f => Descriptor.sourceName f.descriptor) (compareOn name)

end FieldDecl

namespace MethodDecl

/-- The first line, or a number above all lines for a method without any. -/
def startLine (m : MethodDecl) : Nat :=
  match m.firstLine with
  | some line => line.toNat
  | none => UInt32.size - 1

/-- Instance methods come first; then methods are ordered by their first lines, those without lines
last. -/
def sourceOrder : MethodDecl → MethodDecl → Ordering :=
  compareLex (compareOn isStatic) (compareOn startLine)

end MethodDecl

namespace ClassDecl

/-- The fields in source order. -/
def sortedFields (c : ClassDecl) : List FieldDecl :=
  c.fields.mergeSort fun a b => (FieldDecl.sourceOrder a b).isLE

/-- The methods in source order; methods that are equal in it keep their places. -/
def sortedMethods (c : ClassDecl) : List MethodDecl :=
  c.methods.mergeSort fun a b => (MethodDecl.sourceOrder a b).isLE

/-- Whether sorting changes the sequence of field names. -/
def sortsFields (c : ClassDecl) : Bool :=
  c.sortedFields.map FieldDecl.name != c.fields.map FieldDecl.name

/-- Whether sorting changes the sequence of method names and types. -/
def sortsMethods (c : ClassDecl) : Bool :=
  c.sortedMethods.map (fun m => (m.name, m.descriptor)) !=
    c.methods.map fun m => (m.name, m.descriptor)

end ClassDecl

namespace ClassPool

/-- Sorts the fields of all classes and counts the classes in which that changed something. -/
def sortFields {ε : Type} (pool : ClassPool) : Logged ε (ClassPool × Nat) := do
  let count := pool.classes.countP ClassDecl.sortsFields
  Logged.info s!"Re-ordered fields within {count} classes."
  pure (pool.mapMembers ClassDecl.sortedFields ClassDecl.methods, count)

/-- Sorts the methods of all classes and counts the classes in which that changed something. -/
def sortMethods {ε : Type} (pool : ClassPool) : Logged ε (ClassPool × Nat) := do
  let count := pool.classes.countP ClassDecl.sortsMethods
  Logged.info s!"Sorted methods by line number in {count} classes."
  pure (pool.mapMembers ClassDecl.fields ClassDecl.sortedMethods, count)

end ClassPool

end Unscramble
