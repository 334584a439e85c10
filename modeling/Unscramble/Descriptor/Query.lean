/-
Questions about a written descriptor, and changes to it that work on the text alone.  Dropping a
parameter and renaming classes keep everything else as it was written, so they also apply to texts
that no reader of descriptors would accept.
-/
import Unscramble.Descriptor.Parser

namespace Unscramble

/-- Why a question about a descriptor has no answer.  The text of a descriptor is cut byte by byte, which the program
does not survive where a cut falls inside a character. -/
inductive DescriptorFault where
  | method (reason : Descriptor.ReadError)
  | field (descriptor : String) (reason : Descriptor.ReadError)
  | notOneField (descriptor : String)
  | malformed (descriptor : String)
  | noParameters (descriptor : String)
  | cutCharacter (c : Char)
deriving DecidableEq, Repr

def DescriptorFault.message : DescriptorFault → String
  | method reason => "parse method descriptor: " ++ reason.message
  | field descriptor reason =>
      s!"parse field descriptor {descriptor}: parse method descriptor: " ++ reason.message
  | notOneField descriptor => s!"invalid field descriptor {descriptor}"
  | malformed descriptor => s!"invalid method descriptor {descriptor}"
  | noParameters descriptor => s!"descriptor has no parameters: {descriptor}"
  | cutCharacter c => s!"byte index is not a char boundary; it is inside '{c}'"

namespace Descriptor

/-- The parameter types of a method descriptor. -/
def parameters (descriptor : String) : Except DescriptorFault (List TypeDesc) :=
  match parseMethod descriptor with
  | .ok m => .ok m.params
  | .error e => .error (.method e)

/-- The return type of a method descriptor. -/
def result (descriptor : String) : Except DescriptorFault TypeDesc :=
  match parseMethod descriptor with
  | .ok m => .ok m.result
  | .error e => .error (.method e)

/-- The type of a field descriptor, read as the only parameter of a method. -/
def fieldType (descriptor : String) : Except DescriptorFault TypeDesc :=
  match parseMethod ("(" ++ descriptor ++ ")V") with
  | .error e => .error (.field descriptor e)
  | .ok m =>
      match m.params with
      | [type] => .ok type
      | _ => .error (.notOneField descriptor)

/-- The slots that the declared parameters occupy, the receiver excluded. -/
def parameterSlots (descriptor : String) : Except DescriptorFault Nat :=
  (parameters descriptor).map TypeDesc.totalSlots

/-- The local slot and the type of the last declared parameter. -/
def lastParameter (descriptor : String) (isStatic : Bool) :
    Except DescriptorFault (Option (UInt16 × TypeDesc)) :=
  (parameters descriptor).map fun types =>
    types.getLast?.map fun last =>
      let receiver := if isStatic then 0 else 1
      (UInt16.ofNat (receiver + TypeDesc.totalSlots types.dropLast), last)

/-- Why a text cannot be cut into parameters: the last of them is not complete, or a parameter of a single byte
would end inside a character. -/
inductive CutFault where
  | incomplete
  | cutCharacter (c : Char)
deriving DecidableEq, Repr

/-- One written parameter and the characters after it: brackets, then a class name up to its
semicolon or a single character, which has to be one of a single byte. -/
def splitParameter (input : List Char) : Except CutFault (List Char × List Char) :=
  let brackets := input.takeWhile (· == '[')
  match input.dropWhile (· == '[') with
  | [] => .error .incomplete
  | 'L' :: rest =>
      match splitAtSemicolon rest with
      | some (name, tail) => .ok (brackets ++ 'L' :: name ++ [';'], tail)
      | none => .error .incomplete
  | c :: rest => if c.toNat < 0x80 then .ok (brackets ++ [c], rest) else .error (.cutCharacter c)

theorem splitParameter_length {input front rest : List Char}
    (h : splitParameter input = .ok (front, rest)) : rest.length < input.length := by
  have hsuffix : (input.dropWhile (· == '[')).length ≤ input.length :=
    (List.dropWhile_suffix _).length_le
  simp only [splitParameter] at h
  split at h
  · cases h
  · next tail hdrop =>
      split at h
      · next name back hsplit =>
          have hback := splitAtSemicolon_length hsplit
          obtain ⟨-, rfl⟩ := Prod.mk.inj (Except.ok.inj h)
          rw [hdrop, List.length_cons] at hsuffix
          omega
      · cases h
  · next c tail _ hdrop =>
      split at h
      · obtain ⟨-, rfl⟩ := Prod.mk.inj (Except.ok.inj h)
        rw [hdrop, List.length_cons] at hsuffix
        omega
      · cases h

/-- All written parameters of the part between the parentheses. -/
def splitParameters (input : List Char) : Except CutFault (List (List Char)) :=
  if input.isEmpty then .ok []
  else
    match h : splitParameter input with
    | .error fault => .error fault
    | .ok (part, rest) =>
        have := splitParameter_length h
        (splitParameters rest).map (part :: ·)
termination_by input.length

/-- The descriptor without its last parameter.  The parameters end at the first closing
parenthesis. -/
def dropLastParameter (descriptor : String) : Except DescriptorFault String :=
  match descriptor.toList with
  | '(' :: body =>
      match body.dropWhile (· != ')') with
      | [] => .error (.malformed descriptor)
      | _ :: result =>
          match splitParameters (body.takeWhile (· != ')')) with
          | .error .incomplete => .error (.malformed descriptor)
          | .error (.cutCharacter c) => .error (.cutCharacter c)
          | .ok [] => .error (.noParameters descriptor)
          | .ok parts =>
              .ok (String.ofList ('(' :: parts.dropLast.flatten ++ ')' :: result))
  | _ => .error (.malformed descriptor)

/-- The spelling of a field descriptor in source code; a text that is none is left as it is. -/
def sourceName (descriptor : String) : String :=
  match fieldType descriptor with
  | .ok type => type.sourceName
  | .error _ => descriptor

/-- Renames every class of a written descriptor: each text between an L and the next
semicolon that `rename` knows. -/
def mapChars (rename : String → Option String) (input : List Char) : List Char :=
  match input with
  | [] => []
  | 'L' :: rest =>
      match h : splitAtSemicolon rest with
      | none => 'L' :: rest
      | some (name, tail) =>
          have := splitAtSemicolon_length h
          'L' :: ((rename (String.ofList name)).map String.toList |>.getD name) ++
            ';' :: mapChars rename tail
  | c :: rest => c :: mapChars rename rest
termination_by input.length

def mapNames (rename : String → Option String) (descriptor : String) : String :=
  String.ofList (mapChars rename descriptor.toList)

end Descriptor

end Unscramble
