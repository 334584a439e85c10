/-
Removing members without use: fields that no instruction names, methods that no call can reach, and
constructors that only throw.
-/
import Unscramble.Class.Hierarchy
import Unscramble.Library
import Unscramble.Log
import Unscramble.Total

namespace Unscramble

namespace ClassPool

/-- The identities of the fields that instructions name. -/
def usedFields (pool : ClassPool) : List String :=
  pool.instrs.filterMap fun
    | .field _ ref => some ref.fieldKey
    | _ => none

/-- The identities of the methods that instructions call. -/
def calledMethods (pool : ClassPool) : List String :=
  pool.instrs.filterMap fun
    | .method _ ref _ => some ref.methodKey
    | _ => none

/-- The number of fields of all classes. -/
def fieldCount (pool : ClassPool) : Nat :=
  total (pool.classes.map (·.fields.length))

/-- Removes the fields that no instruction names, except final ones, and counts them. -/
def removeUnusedFields {ε : Type} (pool : ClassPool) : Logged ε (ClassPool × Nat) := do
  let used := pool.usedFields
  let fewer := pool.mapMembers
    (fun c => c.fields.filter fun f => f.isFinal || used.contains (c.fieldKey f))
    ClassDecl.methods
  let count := pool.fieldCount - fewer.fieldCount
  Logged.info s!"Removed {count} unused fields."
  pure (fewer, count)

/-- Keeps the methods for which `keep` holds, with the number of those removed. -/
def filterMethods (keep : ClassDecl → MethodDecl → Bool) (pool : ClassPool) : ClassPool × Nat :=
  let fewer := pool.mapMembers ClassDecl.fields fun c => c.methods.filter (keep c)
  (fewer, pool.methods.length - fewer.methods.length)

end ClassPool

namespace MethodDecl

/-- Whether a program can be started with the method. -/
def isMain (m : MethodDecl) : Bool :=
  let access := Access.publicBit ||| Access.staticBit
  m.is "main" "([Ljava/lang/String;)V" && m.access &&& access == access

/-- Whether the method is called by other means than a call instruction. -/
def isEntry (m : MethodDecl) : Bool :=
  m.name == "<init>" || m.name == "<clinit>" || m.isMain

/-- The opcodes of a constructor that only throws. -/
def throwingBody : List Opcode :=
  [ Opcode.aload, Opcode.invokeSpecial, Opcode.newObject, Opcode.dup, Opcode.invokeSpecial,
    Opcode.athrow ]

/-- Whether the method is a constructor without parameters that only throws. -/
def isErrorConstructor (m : MethodDecl) : Bool :=
  m.is "<init>" "()V" && m.throws == ["java/lang/Throwable"] &&
    m.code.filterMap Instr.opcode? == throwingBody

end MethodDecl

namespace ClassPool

/-- Whether a call may reach a method, given the identities of the methods called: through its own class,
through a super type of it, which may belong to the library, or through a subtype. -/
def isReachable (pool : ClassPool) (called : List String) (c : ClassDecl) (m : MethodDecl) : Bool :=
  let calledThrough (owner : String) : Bool :=
    called.contains (MemberRef.mk owner m.name m.descriptor).methodKey
  m.isEntry || calledThrough c.name ||
    (pool.allSupers c.name).any (fun owner =>
      Library.declares owner m.name m.descriptor || calledThrough owner) ||
    (pool.withSubclasses c.name).any calledThrough

/-- The identities of the methods that no call can reach. -/
def unreachableMethods (pool : ClassPool) : List String :=
  let called := pool.calledMethods
  (pool.methods.filter fun (c, m) => !pool.isReachable called c m).map fun (c, m) => c.methodKey m

/-- Removes the methods that no call can reach and counts them. -/
def removeUnusedMethods {ε : Type} (pool : ClassPool) : Logged ε (ClassPool × Nat) := do
  let unreachable := pool.unreachableMethods
  let (fewer, count) := pool.filterMethods fun c m => !unreachable.contains (c.methodKey m)
  Logged.info s!"Removed {count} unused methods."
  pure (fewer, count)

/-- Removes constructors that only throw and counts them. -/
def removeErrorConstructors {ε : Type} (pool : ClassPool) : Logged ε (ClassPool × Nat) := do
  let (fewer, count) := pool.filterMethods fun _ m => !m.isErrorConstructor
  Logged.info s!"Removed {count} method error constructors."
  pure (fewer, count)

end ClassPool

end Unscramble
