/-!
# Sets of numbers as lists of intervals

An `IntervalSet` lists inclusive, non-empty spans in ascending order.  `insert`
unites spans that overlap or touch, so neighbouring spans of a set built by the
operations below always leave a gap, and equal sets have equal lists.
-/

namespace PatternSampler

structure Span where
  lo : Nat
  hi : Nat
  ordered : lo ≤ hi := by omega
deriving DecidableEq, Repr

namespace Span

def ofBounds? (lo hi : Nat) : Option Span :=
  if h : lo ≤ hi then some ⟨lo, hi, h⟩ else none

def size (s : Span) : Nat := s.hi - s.lo + 1

def contains (s : Span) (n : Nat) : Bool := s.lo ≤ n && n ≤ s.hi

instance : Membership Nat Span := ⟨fun s n => s.lo ≤ n ∧ n ≤ s.hi⟩

instance (n : Nat) (s : Span) : Decidable (n ∈ s) :=
  inferInstanceAs (Decidable (s.lo ≤ n ∧ n ≤ s.hi))

/-- `s` ends before `t` begins, with at least one number between them. -/
def Before (s t : Span) : Prop := s.hi + 1 < t.lo

instance (s t : Span) : Decidable (s.Before t) :=
  inferInstanceAs (Decidable (s.hi + 1 < t.lo))

def hull (s t : Span) : Span where
  lo := min s.lo t.lo
  hi := max s.hi t.hi
  ordered := by have := s.ordered; omega

/-- What `cut` leaves of `s`: a part below it, a part above it, or both. -/
def without (s cut : Span) : List Span :=
  if s.hi < cut.lo ∨ cut.hi < s.lo then [s]
  else
    (if h : s.lo < cut.lo then [⟨s.lo, cut.lo - 1, by omega⟩] else []) ++
      (if h : cut.hi < s.hi then [⟨cut.hi + 1, s.hi, by omega⟩] else [])

end Span

/-- A set of natural numbers, as its maximal spans in ascending order. -/
structure IntervalSet where
  spans : List Span
deriving DecidableEq, Repr

namespace IntervalSet

def Separated (s : IntervalSet) : Prop := s.spans.Pairwise Span.Before

instance (s : IntervalSet) : Decidable s.Separated :=
  inferInstanceAs (Decidable (s.spans.Pairwise Span.Before))

def empty : IntervalSet := ⟨[]⟩

instance : EmptyCollection IntervalSet := ⟨empty⟩

instance : Inhabited IntervalSet := ⟨empty⟩

def isEmpty (s : IntervalSet) : Bool := s.spans.isEmpty

def size (s : IntervalSet) : Nat := s.spans.foldr (·.size + ·) 0

def contains (s : IntervalSet) (n : Nat) : Bool := s.spans.any (·.contains n)

instance : Membership Nat IntervalSet := ⟨fun s n => ∃ t ∈ s.spans, n ∈ t⟩

def nthOf : List Span → Nat → Option Nat
  | [], _ => none
  | s :: rest, n => if n < s.size then some (s.lo + n) else nthOf rest (n - s.size)

/-- The element with `n` smaller elements, if there is one. -/
def nth? (s : IntervalSet) (n : Nat) : Option Nat := nthOf s.spans n

/-- Skips the spans below `s`, swallows those it touches, and keeps the rest. -/
def insertInto (s : Span) : List Span → List Span
  | [] => [s]
  | t :: rest =>
      if s.hi + 1 < t.lo then s :: t :: rest
      else if t.hi + 1 < s.lo then t :: insertInto s rest
      else insertInto (s.hull t) rest

def insert (s : IntervalSet) (t : Span) : IntervalSet := ⟨insertInto t s.spans⟩

def remove (s : IntervalSet) (cut : Span) : IntervalSet :=
  ⟨s.spans.flatMap (·.without cut)⟩

def union (s t : IntervalSet) : IntervalSet := t.spans.foldl insert s

instance : Union IntervalSet := ⟨union⟩

/-- The gaps of a list of spans from `next` up to `max`. -/
def gaps (next max : Nat) : List Span → List Span
  | [] => (Span.ofBounds? next max).toList
  | s :: rest =>
      if max < s.lo then (Span.ofBounds? next max).toList
      else
        (if h : next < s.lo then [⟨next, s.lo - 1, by omega⟩] else []) ++
          (if max ≤ s.hi then [] else gaps (s.hi + 1) max rest)

def complementWithin (s : IntervalSet) (max : Nat) : IntervalSet :=
  ⟨gaps 0 max s.spans⟩

end IntervalSet

end PatternSampler
