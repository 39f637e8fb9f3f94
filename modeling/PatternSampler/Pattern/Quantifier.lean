/-!
# Quantifiers

How often a construct is repeated, and whether every repetition has to spell the
first one again.
-/

namespace PatternSampler

structure Quantifier where
  min : Nat
  max : Option Nat
  same : Bool
deriving DecidableEq, Repr

namespace Quantifier

def Allows (q : Quantifier) (count : Nat) : Prop :=
  q.min ≤ count ∧ ∀ max, q.max = some max → count ≤ max

def violable (q : Quantifier) : Bool := 0 < q.min || q.max.isSome

def exhausted (q : Quantifier) (count : Nat) : Bool := q.max.any (· ≤ count)

end Quantifier

end PatternSampler
