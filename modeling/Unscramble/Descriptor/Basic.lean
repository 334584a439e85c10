/-
Types as the class format describes them: a base type under some number of array dimensions.  The
void type is a base type like the others, because descriptors admit it in every position.
-/
import Unscramble.Total

namespace Unscramble

/-- A type that is not an array. -/
inductive BaseType where
  | boolean
  | byte
  | char
  | short
  | int
  | long
  | float
  | double
  | void
  | object (name : String)
deriving DecidableEq, Repr

/-- A base type under `dims` array dimensions; with none it is the base type itself. -/
structure TypeDesc where
  base : BaseType
  dims : Nat := 0
deriving DecidableEq, Repr

/-- The parameter types and the return type of a method. -/
structure MethodDesc where
  params : List TypeDesc
  result : TypeDesc
deriving DecidableEq, Repr

namespace BaseType

/-- The written form of a base type. -/
def chars : BaseType → List Char
  | boolean => ['Z']
  | byte => ['B']
  | char => ['C']
  | short => ['S']
  | int => ['I']
  | long => ['J']
  | float => ['F']
  | double => ['D']
  | void => ['V']
  | object name => 'L' :: name.toList ++ [';']

/-- The spelling in source code, packages separated by dots. -/
def sourceName : BaseType → String
  | boolean => "boolean"
  | byte => "byte"
  | char => "char"
  | short => "short"
  | int => "int"
  | long => "long"
  | float => "float"
  | double => "double"
  | void => "void"
  | object name => name.map fun c => if c = '/' then '.' else c

end BaseType

namespace TypeDesc

/-- The written form of a type: one bracket for every dimension, then the base type. -/
def chars (t : TypeDesc) : List Char :=
  List.replicate t.dims '[' ++ t.base.chars

def text (t : TypeDesc) : String :=
  String.ofList t.chars

/-- The number of local or stack slots that a value of the type occupies. -/
def slots : TypeDesc → Nat
  | ⟨.long, 0⟩ => 2
  | ⟨.double, 0⟩ => 2
  | ⟨.void, 0⟩ => 0
  | _ => 1

/-- The types whose values are held as an `int`. -/
def isIntLike : TypeDesc → Bool
  | ⟨.int, 0⟩ | ⟨.short, 0⟩ | ⟨.byte, 0⟩ | ⟨.char, 0⟩ | ⟨.boolean, 0⟩ => true
  | _ => false

/-- The spelling in source code, one pair of brackets for every dimension. -/
def sourceName (t : TypeDesc) : String :=
  t.base.sourceName ++ String.join (List.replicate t.dims "[]")

/-- The slots that a list of values occupies. -/
def totalSlots (types : List TypeDesc) : Nat :=
  total (types.map slots)

end TypeDesc

/-- The written form of a method type. -/
def MethodDesc.chars (m : MethodDesc) : List Char :=
  '(' :: m.params.flatMap TypeDesc.chars ++ ')' :: m.result.chars

end Unscramble
