/-
The simplest domain: of every value only its kind is known.
-/
import Unscramble.Analysis.Basic

namespace Unscramble.Domain

/-- Values are kinds; where two kinds meet, nothing is known. -/
def kinds : Domain Kind where
  size := Kind.size
  same := (· == ·)
  fresh := id
  push _ _ kind := kind
  copy _ _ kind := kind
  result _ kind := kind
  binary _ _ _ _ kind := kind
  merge left right := if left = right then left else .uninitialized

end Unscramble.Domain
