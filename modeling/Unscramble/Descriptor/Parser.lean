/-
Reading written descriptors.  A reader takes the remaining characters and gives back what it read
together with the characters it left.  A closing parenthesis where a type could stand is no type; what
that means is for the caller to say.
-/
import Unscramble.Descriptor.Basic

namespace Unscramble.Descriptor

/-- Why a text is no descriptor. -/
inductive ReadError where
  | unexpectedEnd
  | missingSemicolon
  | tooManyDimensions
  | arrayOfNothing
  | unrecognizedType
  | missingOpeningParenthesis
  | missingReturnType
deriving DecidableEq, Repr

def ReadError.message : ReadError → String
  | unexpectedEnd => "Unexpected end of input."
  | missingSemicolon => "Invalid descriptor: Missing semicolon in class name descriptor."
  | tooManyDimensions => "Array has too many dimensions."
  | arrayOfNothing => "Invalid descriptor: Invalid descriptor."
  | unrecognizedType => "Invalid descriptor: Unrecognized type descriptor."
  | missingOpeningParenthesis =>
      "Invalid descriptor: Method descriptor must start with '('."
  | missingReturnType => "Invalid descriptor: Missing return type."

/-- The characters before the first semicolon and those after it. -/
def splitAtSemicolon : List Char → Option (List Char × List Char)
  | [] => none
  | ';' :: rest => some ([], rest)
  | c :: rest => (splitAtSemicolon rest).map fun (name, tail) => (c :: name, tail)

/-- Reads a type that is not an array; `none` at a closing parenthesis. -/
def readBase : List Char → Except ReadError (Option BaseType × List Char)
  | [] => .error .unexpectedEnd
  | ')' :: rest => .ok (none, rest)
  | 'Z' :: rest => .ok (some .boolean, rest)
  | 'B' :: rest => .ok (some .byte, rest)
  | 'C' :: rest => .ok (some .char, rest)
  | 'S' :: rest => .ok (some .short, rest)
  | 'I' :: rest => .ok (some .int, rest)
  | 'J' :: rest => .ok (some .long, rest)
  | 'F' :: rest => .ok (some .float, rest)
  | 'D' :: rest => .ok (some .double, rest)
  | 'V' :: rest => .ok (some .void, rest)
  | 'L' :: rest =>
      match splitAtSemicolon rest with
      | some (name, tail) => .ok (some (.object (String.ofList name)), tail)
      | none => .error .missingSemicolon
  | _ :: _ => .error .unrecognizedType

/-- The greatest number of array dimensions. -/
def maxDims : Nat := 255

/-- Reads the next type; `none` at a closing parenthesis. -/
def readType (input : List Char) : Except ReadError (Option TypeDesc × List Char) :=
  let dims := (input.takeWhile (· == '[')).length
  if maxDims < dims then .error .tooManyDimensions
  else
    match readBase (input.drop dims) with
    | .error e => .error e
    | .ok (some base, rest) => .ok (some ⟨base, dims⟩, rest)
    | .ok (none, rest) => if dims = 0 then .ok (none, rest) else .error .arrayOfNothing

theorem splitAtSemicolon_length {input name rest : List Char}
    (h : splitAtSemicolon input = some (name, rest)) : rest.length < input.length := by
  fun_induction splitAtSemicolon input generalizing name rest with
  | case1 => simp at h
  | case2 tail => simp_all
  | case3 c tail _ ih =>
      obtain ⟨⟨front, back⟩, hsplit, heq⟩ := Option.map_eq_some_iff.1 h
      simp only [Prod.mk.injEq] at heq
      have := ih hsplit
      simp_all
      omega

theorem readBase_length {input rest : List Char} {base : Option BaseType}
    (h : readBase input = .ok (base, rest)) : rest.length < input.length := by
  fun_cases readBase input <;> simp_all [readBase]
  next tail name back hsplit =>
    have := splitAtSemicolon_length hsplit
    obtain ⟨_, rfl⟩ := h
    omega

/-- Every type that is read uses up at least one character. -/
theorem readType_length {input rest : List Char} {type : Option TypeDesc}
    (h : readType input = .ok (type, rest)) : rest.length < input.length := by
  simp only [readType] at h
  split at h
  · simp at h
  · split at h
    · simp at h
    · next base tail hbase =>
        have := readBase_length hbase
        simp only [List.length_drop] at this
        simp_all
        omega
    · next tail hbase =>
        have := readBase_length hbase
        simp only [List.length_drop] at this
        split at h <;> simp_all

/-- Reads types up to and including the closing parenthesis. -/
def readParams (input : List Char) : Except ReadError (List TypeDesc × List Char) :=
  match h : readType input with
  | .error e => .error e
  | .ok (none, rest) => .ok ([], rest)
  | .ok (some type, rest) =>
      have := readType_length h
      match readParams rest with
      | .error e => .error e
      | .ok (types, tail) => .ok (type :: types, tail)
termination_by input.length

/-- Reads a method type.  What follows the return type is ignored. -/
def readMethod : List Char → Except ReadError MethodDesc
  | '(' :: input =>
      match readParams input with
      | .error e => .error e
      | .ok (params, rest) =>
          match readType rest with
          | .error e => .error e
          | .ok (none, _) => .error .missingReturnType
          | .ok (some result, _) => .ok ⟨params, result⟩
  | _ => .error .missingOpeningParenthesis

/-- The method type that a text describes. -/
def parseMethod (text : String) : Except ReadError MethodDesc :=
  readMethod text.toList

end Unscramble.Descriptor
