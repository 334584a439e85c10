/-
Classes with their fields and methods.  Classes refer to each other by name only.
-/
import Unscramble.Instr.Basic

namespace Unscramble

/-- Access flags: a set of properties as a bit mask. -/
abbrev Access := UInt16

namespace Access

abbrev publicBit : Access := 0x0001
abbrev privateBit : Access := 0x0002
abbrev protectedBit : Access := 0x0004
abbrev staticBit : Access := 0x0008
abbrev finalBit : Access := 0x0010
abbrev synchronizedBit : Access := 0x0020
abbrev volatileBit : Access := 0x0040
abbrev transientBit : Access := 0x0080
abbrev nativeBit : Access := 0x0100
abbrev interfaceBit : Access := 0x0200
abbrev abstractBit : Access := 0x0400

/-- Whether any of the properties in `mask` holds. -/
def has (access mask : Access) : Bool :=
  access &&& mask != 0

end Access

/-- A range of code with the place that handles exceptions raised in it.  Without a type the
handler takes every exception. -/
structure TryBlock where
  start : Label
  stop : Label
  handler : Label
  catchType : Option String
deriving DecidableEq, Repr

/-- The declaration of a field. -/
structure FieldDecl where
  name : String
  descriptor : String
  access : Access := 0
  value : Option Constant := none
deriving DecidableEq, Repr

/-- The declaration of a method; an empty code list means that it has no body. -/
structure MethodDecl where
  name : String
  descriptor : String
  access : Access := 0
  code : List Instr := []
  tries : List TryBlock := []
  throws : List String := []
  maxStack : UInt16 := 0
  maxLocals : UInt16 := 0
deriving DecidableEq, Repr

/-- The declaration of a class or interface. -/
structure ClassDecl where
  name : String
  superName : Option String := some "java/lang/Object"
  interfaces : List String := []
  access : Access := Access.publicBit ||| Access.synchronizedBit
  minor : UInt16 := 0
  major : UInt16 := 50
  sourceFile : Option String := none
  fields : List FieldDecl := []
  methods : List MethodDecl := []
deriving DecidableEq, Repr

namespace FieldDecl

def isStatic (f : FieldDecl) : Bool := f.access.has Access.staticBit

def isFinal (f : FieldDecl) : Bool := f.access.has Access.finalBit

/-- Whether the field has this name and type. -/
def is (name descriptor : String) (f : FieldDecl) : Bool :=
  f.name == name && f.descriptor == descriptor

end FieldDecl

namespace MethodDecl

def isStatic (m : MethodDecl) : Bool := m.access.has Access.staticBit

def isAbstract (m : MethodDecl) : Bool := m.access.has Access.abstractBit

def isNative (m : MethodDecl) : Bool := m.access.has Access.nativeBit

def hasCode (m : MethodDecl) : Bool := !m.code.isEmpty

/-- Whether the method has this name and type. -/
def is (name descriptor : String) (m : MethodDecl) : Bool :=
  m.name == name && m.descriptor == descriptor

/-- The number of the first line marker. -/
def firstLine (m : MethodDecl) : Option UInt16 :=
  m.code.findSome? fun
    | .line n => some n
    | _ => none

end MethodDecl

namespace ClassDecl

def isInterface (c : ClassDecl) : Bool := c.access.has Access.interfaceBit

/-- The first method with this name and type. -/
def method? (name descriptor : String) (c : ClassDecl) : Option MethodDecl :=
  c.methods.find? (·.is name descriptor)

/-- The first field with this name and type. -/
def field? (name descriptor : String) (c : ClassDecl) : Option FieldDecl :=
  c.fields.find? (·.is name descriptor)

/-- The identity of a method of the class. -/
def methodKey (c : ClassDecl) (m : MethodDecl) : String :=
  (MemberRef.mk c.name m.name m.descriptor).methodKey

/-- The identity of a field of the class. -/
def fieldKey (c : ClassDecl) (f : FieldDecl) : String :=
  (MemberRef.mk c.name f.name f.descriptor).fieldKey

/-- The direct super types: the super class first, then the interfaces. -/
def supers (c : ClassDecl) : List String :=
  c.superName.toList ++ c.interfaces

end ClassDecl

end Unscramble
