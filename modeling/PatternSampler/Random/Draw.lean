import PatternSampler.Random.Source

/-!
# Uniform draws

A draw from `n` numbers multiplies a word by `n` and answers the part above 64
bits.  Words whose lower part leaves the zone, the largest multiple of `n` by a
power of two that fits, are thrown away, so that all answers are equally likely.
A draw from nothing has no answer and leaves the source as it is.
-/

namespace PatternSampler.Source

def wordCount : Nat := Nat.pow 2 64

/-- The largest lower part of a product that a draw from `n` numbers accepts. -/
def zone (n : Nat) : Nat := n <<< (63 - n.log2) - 1

/-- A number below `n`.  As many tries as the source has states are enough, since
after those it repeats its words. -/
def drawBelow (n : Nat) : (tries : Nat) → Source → Nat × Source
  | 0, s => (0, s)
  | tries + 1, s =>
      let (word, s) := s.next
      let product := word.toNat * n
      if product % wordCount ≤ zone n then (product / wordCount, s)
      else drawBelow n tries s

theorem drawBelow_lt {n : Nat} (positive : 0 < n) (tries : Nat) (s : Source) :
    (drawBelow n tries s).1 < n := by
  induction tries generalizing s with
  | zero => exact positive
  | succ tries ih =>
      simp only [drawBelow]
      split
      · refine Nat.div_lt_of_lt_mul ?_
        exact (Nat.mul_lt_mul_right positive).2 s.next.1.toNat_lt
      · exact ih _

def between (lo hi : Nat) : StateM Source (Option Nat) := fun s =>
  if lo ≤ hi then
    let (offset, s) := drawBelow (hi - lo + 1) (Nat.pow 2 128) s
    (some (lo + offset), s)
  else (none, s)

/-- A number from `lo` up to `hi`, which is left out. -/
def range (lo hi : Nat) : StateM Source (Option Nat) := fun s =>
  if lo < hi then between lo (hi - 1) s else (none, s)

def sample {α : Type} (items : List α) : StateM Source (Option α) := do
  let index ← range 0 items.length
  pure (index.bind (items[·]?))

def coin : StateM Source Bool := fun s =>
  let (word, s) := s.next
  ((word >>> 31) &&& 1 == 1, s)

end PatternSampler.Source
