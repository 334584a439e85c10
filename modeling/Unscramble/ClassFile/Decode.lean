/-
Decoding class files: every index of the raw structure is looked up, and the code of every method
decoded.
-/
import Unscramble.ClassFile.Code

namespace Unscramble.ClassFile

/-- Why a class file cannot be decoded. -/
inductive DecodeFault where
  | malformed
  | className (reason : PoolFault)
  | superName (reason : PoolFault)
  | interfaceName (reason : PoolFault)
  | sourceFile (reason : PoolFault)
  | fieldName (reason : PoolFault)
  | fieldDescriptor (reason : PoolFault)
  | constantValue (field : String) (reason : PoolFault)
  | methodName (reason : PoolFault)
  | methodDescriptor (reason : PoolFault)
  | declaredException (reason : PoolFault)
  | code (name descriptor : String) (reason : CodeFault)
  | fields (reason : DecodeFault)
  | methods (className : String) (reason : DecodeFault)
deriving DecidableEq, Repr

def DecodeFault.message : DecodeFault → String
  | malformed => "failed to parse class file bytes"
  | className reason => "resolve class name: " ++ reason.message
  | superName reason => "resolve super class name: " ++ reason.message
  | interfaceName reason => "resolve interface name: " ++ reason.message
  | sourceFile reason => "resolve source file: " ++ reason.message
  | fieldName reason => "resolve field name: " ++ reason.message
  | fieldDescriptor reason => "resolve field descriptor: " ++ reason.message
  | constantValue field reason => s!"resolve constant value of {field}: {reason.message}"
  | methodName reason => "resolve method name: " ++ reason.message
  | methodDescriptor reason => "resolve method descriptor: " ++ reason.message
  | declaredException reason => "resolve declared exception: " ++ reason.message
  | code name descriptor reason => s!"decode {name}{descriptor}: {reason.message}"
  | fields reason => "parse fields: " ++ reason.message
  | methods owner reason => s!"parse methods of {owner}: {reason.message}"

/-- Decodes a field; of several constant values the last one counts. -/
def decodeField (pool : ConstantPool) (raw : RawMember) : Except DecodeFault FieldDecl := do
  let name ← (pool.utf8 raw.name).mapError .fieldName
  let descriptor ← (pool.utf8 raw.descriptor).mapError .fieldDescriptor
  let value ← raw.attributes.foldlM (fun value attr =>
    match attr with
    | .constantValue index => some <$> (pool.constant index).mapError (.constantValue name)
    | _ => pure value) none
  pure { name, descriptor, access := raw.access, value }

/-- Adds what an attribute says to a method; the number is that of the next label.  A second body takes
the place of the first one, but adds to its handler ranges. -/
def decodeMethodAttribute (pool : ConstantPool) (state : MethodDecl × Nat) (attr : Attribute) :
    Except DecodeFault (MethodDecl × Nat) := do
  let (m, nextLabel) := state
  match attr with
  | .code raw =>
      let (code, tries, nextLabel) ←
        (Code.decode pool nextLabel raw).mapError (.code m.name m.descriptor)
      let maxStack := raw.maxStack
      let maxLocals := raw.maxLocals
      pure ({ m with code, tries := m.tries ++ tries, maxStack, maxLocals }, nextLabel)
  | .exceptions types =>
      let names ← types.mapM fun index => (pool.className index).mapError .declaredException
      pure ({ m with throws := m.throws ++ names }, nextLabel)
  | _ => pure state

def decodeMethod (pool : ConstantPool) (raw : RawMember) : Except DecodeFault MethodDecl := do
  let name ← (pool.utf8 raw.name).mapError .methodName
  let descriptor ← (pool.utf8 raw.descriptor).mapError .methodDescriptor
  let bare : MethodDecl := { name, descriptor, access := raw.access }
  let (m, _) ← raw.attributes.foldlM (decodeMethodAttribute pool) (bare, 0)
  pure m

/-- The class that a raw structure describes. -/
def RawClass.decode (raw : RawClass) : Except DecodeFault ClassDecl := do
  let pool := raw.pool
  let name ← (pool.className raw.thisClass).mapError .className
  let superName ←
    if raw.superClass = 0 then pure none
    else some <$> (pool.className raw.superClass).mapError .superName
  let interfaces ← raw.interfaces.mapM fun index => (pool.className index).mapError .interfaceName
  let sourceFile ← raw.attributes.foldlM (fun file attr =>
    match attr with
    | .sourceFile index => some <$> (pool.utf8 index).mapError .sourceFile
    | _ => pure file) none
  let fields ← (raw.fields.mapM (decodeField pool)).mapError .fields
  let methods ← (raw.methods.mapM (decodeMethod pool)).mapError (.methods name)
  let access := raw.access
  let minor := raw.minor
  let major := raw.major
  pure { name, superName, interfaces, access, minor, major, sourceFile, fields, methods }

/-- The class that the bytes of a class file describe. -/
def decodeClass (data : Bytes) : Except DecodeFault ClassDecl :=
  match RawClass.parse? data with
  | some raw => raw.decode
  | none => .error .malformed

end Unscramble.ClassFile
