/-
Removing trailing parameters.  Methods that declare each other anew along the hierarchy form a group under
the declaration highest up.  If none of them looks at its last parameter, held as an `int`, and every call
pushes a constant for it, the parameter goes, and with it the constants.
-/
import Unscramble.Class.Hierarchy
import Unscramble.Cleanup.Guards
import Unscramble.Library

namespace Unscramble

/-- A method by its class and its position in it. -/
structure MethodPlace where
  owner : String
  index : Nat
deriving DecidableEq, Repr

namespace ClassPool

def methodAt? (pool : ClassPool) (place : MethodPlace) : Option MethodDecl :=
  (pool.get? place.owner).bind (·.methods[place.index]?)

/-- Replaces a method. -/
def setMethod (pool : ClassPool) (place : MethodPlace) (m : MethodDecl) : ClassPool :=
  pool.map
    (fun c => { c with
      methods := if c.name = place.owner then c.methods.set place.index m else c.methods })
    fun _ => rfl

/-- Changes a method, if it exists. -/
def changeMethod {ε : Type} (pool : ClassPool) (place : MethodPlace)
    (change : MethodDecl → Except ε MethodDecl) : Except ε ClassPool :=
  match pool.methodAt? place with
  | some m => (change m).map (pool.setMethod place)
  | none => .ok pool

/-- All methods with their places, in order. -/
def placedMethods (pool : ClassPool) : List (MethodPlace × MethodDecl) :=
  pool.classes.flatMap fun c => c.methods.zipIdx.map fun (m, index) => (⟨c.name, index⟩, m)

/-- Whether a super type of a class declares the method. -/
def inherits (pool : ClassPool) (c : ClassDecl) (m : MethodDecl) : Bool :=
  (pool.allSupers c.name).any fun name =>
    (pool.get? name).any fun ancestor => (ancestor.method? m.name m.descriptor).isSome

/-- Whether a super type outside the pool declares the method. -/
def overridesLibrary (pool : ClassPool) (owner : String) (m : MethodDecl) : Bool :=
  (pool.allSupers owner).any fun name =>
    !pool.contains name && Library.declares name m.name m.descriptor

end ClassPool

namespace TrailingInt

/-- Why trailing parameters cannot be dropped: a descriptor cannot be shortened, or a call has no instruction before it
that could be removed, which the program does not survive. -/
inductive DropFault where
  | descriptor (reason : DescriptorFault)
  | nothingBefore
deriving DecidableEq, Repr

def DropFault.message : DropFault → String
  | descriptor reason => reason.message
  | nothingBefore => "attempt to subtract with overflow"

/-- The identities of the methods that no super type in the pool declares; constructors are never
inherited. -/
def tops (pool : ClassPool) : List String :=
  (pool.methods.filter fun (c, m) => m.name == "<init>" || !pool.inherits c m).map
    fun (c, m) => c.methodKey m

/-- Looks for a candidate from a class upwards, through the super class before the interfaces and not
higher than `height` levels. -/
def search (pool : ClassPool) (candidates : List String) (name descriptor : String) :
    (height : Nat) → (owner : String) → Option String
  | 0, _ => none
  | height + 1, owner =>
      let key := (MemberRef.mk owner name descriptor).methodKey
      if candidates.contains key then some key
      else if name == "<init>" then none
      else (pool.directSupers owner).findSome? (search pool candidates name descriptor height)

/-- The candidate to which a reference leads.  Without cycles a chain of super types holds every class of
the pool at most once and then perhaps one outside of it. -/
def resolve (pool : ClassPool) (candidates : List String) (ref : MemberRef) : Option String :=
  search pool candidates ref.name ref.descriptor (pool.size + 1) ref.owner

/-- The methods under one declaration. -/
structure Group where
  top : String
  members : List (MethodPlace × MethodDecl)
deriving DecidableEq, Repr

/-- All methods by the declaration highest up, in the order of those. -/
def groups (pool : ClassPool) : List Group :=
  let tops := tops pool
  let resolved := pool.placedMethods.filterMap fun (place, m) =>
    (resolve pool tops ⟨place.owner, m.name, m.descriptor⟩).map (·, (place, m))
  let keys := (resolved.map (·.1)).mergeSort.eraseDups
  keys.map fun top => ⟨top, (resolved.filter (·.1 == top)).map (·.2)⟩

/-- Whether code touches a local slot. -/
def touches (slot : UInt16) (code : List Instr) : Bool :=
  code.any fun
    | .var _ index | .iinc index _ => index == slot
    | _ => false

/-- Whether a method has a last parameter held as an `int` and does not look at it. -/
def ignoresLast (m : MethodDecl) : Except DescriptorFault Bool :=
  m.lastIntSlot?.map fun
    | none => false
    | some slot => !m.isNative && (m.isAbstract || !touches slot m.code)

/-- Whether a method can lose its last parameter without clashing with another one. -/
def canDrop (pool : ClassPool) (member : MethodPlace × MethodDecl) :
    Except DescriptorFault Bool := do
  let (place, m) := member
  if !(← ignoresLast m) || pool.overridesLibrary place.owner m then return false
  let shorter ← Descriptor.dropLastParameter m.descriptor
  return !(pool.get? place.owner).any fun c => (c.method? m.name shorter).isSome

/-- A call of a method: where it stands, whom it calls, and whether a constant is pushed right before
it. -/
structure Call where
  place : MethodPlace
  index : Nat
  ref : MemberRef
  afterConstant : Bool
deriving DecidableEq, Repr

/-- The calls in some code, the first instruction of which has the index `index` and comes after
`previous`. -/
def callsIn (place : MethodPlace) :
    (previous : Option Instr) → (index : Nat) → (code : List Instr) → List Call
  | _, _, [] => []
  | previous, index, instr :: rest =>
      let later := callsIn place (some instr) (index + 1) rest
      match instr with
      | .method _ ref _ =>
          ⟨place, index, ref, (previous.bind Instr.intConstant?).isSome⟩ :: later
      | _ => later

/-- All calls in the order of methods and instructions. -/
def calls (pool : ClassPool) : List Call :=
  pool.placedMethods.flatMap fun (place, m) => callsIn place none 0 m.code

/-- Gives up the candidate to which a call without a constant leads. -/
def afterCall (pool : ClassPool) (candidates : List String) (call : Call) : List String :=
  if call.afterConstant then candidates
  else
    match resolve pool candidates call.ref with
    | some top => candidates.filter (· != top)
    | none => candidates

/-- Drops the last parameter from the type of a call. -/
def shortenCall : Instr → Except DescriptorFault Instr
  | .method op ref onInterface =>
      (Descriptor.dropLastParameter ref.descriptor).map fun descriptor =>
        .method op { ref with descriptor } onInterface
  | instr => .ok instr

/-- Shortens the call at an index and removes the instruction before it. -/
def dropArgument (index : Nat) (code : List Instr) : Except DropFault (List Instr) :=
  match code[index]? with
  | some instr =>
      match shortenCall instr, index with
      | .error reason, _ => .error (.descriptor reason)
      | .ok _, 0 => .error .nothingBefore
      | .ok shorter, before + 1 => .ok ((code.set index shorter).eraseIdx before)
  | none => .ok code

/-- Drops the last parameter from the type of a method. -/
def shortenMethod (m : MethodDecl) : Except DropFault MethodDecl :=
  ((Descriptor.dropLastParameter m.descriptor).mapError .descriptor).map fun descriptor => { m with descriptor }

/-- The groups that can lose a parameter as far as their methods go. -/
def droppable (pool : ClassPool) : Except DescriptorFault (List Group) :=
  (groups pool).filterM fun group => group.members.allM (canDrop pool)

/-- The groups that can lose a parameter as far as their calls go too. -/
def eligible (pool : ClassPool) (candidates : List Group) : List Group :=
  let kept := (calls pool).foldl (afterCall pool) (candidates.map Group.top)
  candidates.filter fun group => kept.contains group.top

/-- Removes the last parameter of the groups and the constants pushed for it, and counts the methods and
the calls.  Calls are changed from the last one to the first, so that the indexes of the others stay
valid. -/
def drop (pool : ClassPool) (groups : List Group) :
    Except DropFault (ClassPool × Nat × Nat) := do
  let tops := groups.map Group.top
  let sites := (calls pool).filter fun call => (resolve pool tops call.ref).isSome
  let members := groups.flatMap Group.members
  let changed ← sites.foldrM (fun call pool =>
    pool.changeMethod call.place fun m =>
      (dropArgument call.index m.code).map fun code => { m with code }) pool
  let shorter ← members.foldlM (fun pool (place, _) =>
    pool.changeMethod place shortenMethod) changed
  return (shorter, members.length, sites.length)

end TrailingInt

/-- Removes trailing parameters that no method looks at and counts the methods and calls changed. -/
def ClassPool.dropTrailingInts (pool : ClassPool) : Logged TrailingInt.DropFault (ClassPool × Nat) := do
  let candidates ← Logged.ofExcept .descriptor (TrailingInt.droppable pool)
  let (shorter, methods, calls) ←
    Logged.ofExcept id (TrailingInt.drop pool (TrailingInt.eligible pool candidates))
  Logged.info (s!"Removed opaque predicate arguments: [methods: {methods}, " ++
    s!"instructions: {calls}].")
  pure (shorter, methods + calls)

end Unscramble
