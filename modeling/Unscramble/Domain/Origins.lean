/-
The domain of provenance: of every value it is known which instructions may have made it.
-/
import Unscramble.Analysis.Basic

namespace Unscramble

/-- A value by its size and the indexes of the instructions that may have made it, ascending. -/
structure Origin where
  size : Nat
  makers : List Nat
deriving DecidableEq, Repr, Hashable, Inhabited

namespace Origin

/-- Adds an index to an ascending list. -/
def insertMaker (n : Nat) : List Nat → List Nat
  | [] => [n]
  | m :: rest =>
      if n < m then n :: m :: rest
      else if n = m then m :: rest
      else m :: insertMaker n rest

/-- Both values together: the smaller size, and the instructions of either. -/
def merge (a b : Origin) : Origin :=
  ⟨min a.size b.size, b.makers.foldl (fun makers n => insertMaker n makers) a.makers⟩

/-- The instruction that made the value, if there is only one. -/
def maker? (o : Origin) : Option Nat :=
  match o.makers with
  | [n] => some n
  | _ => none

end Origin

namespace Domain

/-- Values are their origins. -/
def origins : Domain Origin where
  size := Origin.size
  same := (· == ·)
  fresh kind := ⟨kind.size, []⟩
  push index _ kind := ⟨kind.size, [index]⟩
  copy index _ value := ⟨value.size, [index]⟩
  result index kind := ⟨kind.size, [index]⟩
  binary index _ _ _ kind := ⟨kind.size, [index]⟩
  merge := Origin.merge

end Domain

end Unscramble
