/-
The passes over a program, each with its identity, its title, what it does in a sentence, and its action.
-/
import Unscramble.Cleanup.DeadCode
import Unscramble.Cleanup.FieldOwner
import Unscramble.Cleanup.FieldRelocation
import Unscramble.Cleanup.Guards
import Unscramble.Cleanup.Handlers
import Unscramble.Cleanup.Layout
import Unscramble.Cleanup.Limits
import Unscramble.Cleanup.MemberOrder
import Unscramble.Cleanup.Renaming
import Unscramble.Cleanup.TrailingInts
import Unscramble.Cleanup.Unused
import Unscramble.Multiplier.Remove

namespace Unscramble

/-- A pass over a program. -/
inductive Pass where
  | fieldOwners
  | staticFields
  | handlers
  | deadCode
  | blockOrder
  | guards
  | trailingInts
  | unusedFields
  | errorConstructors
  | unusedMethods
  | gotos
  | multipliers
  | fieldOrder
  | methodOrder
  | shortNames
  | limits
deriving DecidableEq, Repr

/-- Why a pass fails. -/
inductive PassFault where
  | handlers (reason : HandlersFault)
  | descriptor (reason : DescriptorFault)
  | trailingInts (reason : TrailingInt.DropFault)
  | multipliers (reason : Multiplier.RemoveFault)
deriving DecidableEq, Repr

def PassFault.message : PassFault → String
  | handlers reason => reason.message
  | descriptor reason => reason.message
  | trailingInts reason => reason.message
  | multipliers reason => reason.message

namespace Pass

/-- The short name by which a pass is chosen. -/
def id : Pass → String
  | fieldOwners => "field-owner"
  | staticFields => "static-field-inliner"
  | handlers => "try-catch"
  | deadCode => "dead-code"
  | blockOrder => "control-flow"
  | guards => "opaque-predicate"
  | trailingInts => "opaque-argument"
  | unusedFields => "unused-field"
  | errorConstructors => "error-constructor"
  | unusedMethods => "unused-method"
  | gotos => "goto"
  | multipliers => "multiplier"
  | fieldOrder => "field-sorter"
  | methodOrder => "method-sorter"
  | shortNames => "renamer"
  | limits => "compute-maxs"

def title : Pass → String
  | fieldOwners => "Field owner resolution"
  | staticFields => "Static field relocation"
  | handlers => "Try-catch pruning"
  | deadCode => "Dead code elimination"
  | blockOrder => "Control-flow reordering"
  | guards => "Opaque predicate check removal"
  | trailingInts => "Opaque predicate argument removal"
  | unusedFields => "Unused field removal"
  | errorConstructors => "Error constructor removal"
  | unusedMethods => "Unused method removal"
  | gotos => "Redundant GOTO removal"
  | multipliers => "Multiplier removal"
  | fieldOrder => "Field sorting"
  | methodOrder => "Method sorting"
  | shortNames => "Renaming"
  | limits => "Max stack and locals recomputation"

def summary : Pass → String
  | fieldOwners => "Rewrites field instruction owners to the declaring pool class"
  | staticFields => "Relocates static fields referenced from a single foreign class"
  | handlers => "Removes injected RuntimeException handlers"
  | deadCode => "Deletes instructions without an analysis frame"
  | blockOrder => "Reorders basic blocks of methods without exception handlers"
  | guards => "Replaces checks of the last int parameter with a jump to the passing branch"
  | trailingInts =>
      "Removes unused trailing int parameters together with their call-site constants"
  | unusedFields => "Deletes non-final fields without any field instruction"
  | errorConstructors => "Deletes constructors left behind by removed error handlers"
  | unusedMethods => "Deletes methods without call sites in the class hierarchy"
  | gotos => "Deletes jumps to the immediately following instruction"
  | multipliers => "Solves field decode multipliers and cancels them at every access"
  | fieldOrder => "Orders fields by static-ness, modifiers, type and name"
  | methodOrder => "Puts instance methods first, then sorts by first line number"
  | shortNames => "Renames short class, method and field names and rebuilds the pool"
  | limits => "Re-analyses every method body to size its operand stack and locals"

/-- All passes in their usual order. -/
def all : List Pass :=
  [ fieldOwners, staticFields, handlers, deadCode, blockOrder, guards, trailingInts, unusedFields,
    errorConstructors, unusedMethods, gotos, multipliers, fieldOrder, methodOrder, shortNames,
    limits ]

/-- The pass of the given short name. -/
def ofId? (id : String) : Option Pass :=
  all.find? (·.id == id)

/-- Whether a pass builds a new program instead of changing the one it is given. -/
def rebuilds : Pass → Bool
  | shortNames | limits => true
  | _ => false

/-- Runs a pass: the program after it, and the number of changes.  A pass may fail at a text that it makes only to tell
details, which it does if the run is verbose. -/
def run (pass : Pass) (pool : ClassPool) (verbose : Bool := true) : Logged PassFault (ClassPool × Nat) :=
  match pass with
  | fieldOwners => pool.resolveFieldOwners
  | staticFields => pool.relocateStaticFields
  | handlers => Logged.within .handlers pool.pruneHandlers
  | deadCode => pool.removeDeadCode
  | blockOrder => pool.reorderBlocks
  | guards => Logged.within .descriptor (pool.removeGuards verbose)
  | trailingInts => Logged.within .trailingInts pool.dropTrailingInts
  | unusedFields => pool.removeUnusedFields
  | errorConstructors => pool.removeErrorConstructors
  | unusedMethods => pool.removeUnusedMethods
  | gotos => pool.removeRedundantGotos
  | multipliers => Logged.within .multipliers pool.removeMultipliers
  | fieldOrder => pool.sortFields
  | methodOrder => pool.sortMethods
  | shortNames => pool.rename
  | limits => pool.computeLimits

end Pass

end Unscramble
