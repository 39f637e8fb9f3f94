import Std.Data.TreeSet
import PatternSampler.Pattern.Quantifier

/-!
# Match states

Matching walks through states: a position in the text and, for every capturing
group, the stretch of the text that it took last.  This file holds the two
repetition loops on states.  Both end by themselves; their round counts only say
so in advance.
-/

namespace PatternSampler

structure MatchState where
  position : Nat
  /-- Where each group's capture starts and ends; the groups count from one. -/
  captures : List (Option (Nat × Nat))
deriving DecidableEq, Repr

namespace MatchState

local instance : Ord (Nat × Nat) := lexOrd

def order : MatchState → MatchState → Ordering :=
  compareLex (compareOn position) (compareOn captures)

instance : Std.TransCmp order :=
  inferInstanceAs (Std.TransCmp (compareLex (compareOn position) (compareOn captures)))

instance : Std.LawfulEqCmp order where
  compare_self := Std.ReflCmp.compare_self
  eq_of_compare {s t} h := by
    obtain ⟨samePosition, sameCaptures⟩ := compareLex_eq_eq.1 h
    cases s
    cases t
    simp_all [compareOn]

def start (captureCount : Nat) : MatchState := ⟨0, List.replicate (captureCount + 1) none⟩

/-- The number of states over a text of the given length: any position, and any
two ends or nothing in every slot. -/
def total (length slots : Nat) : Nat :=
  (length + 1) * Nat.pow ((length + 1) * (length + 1) + 1) slots

def captured? (s : MatchState) (index : Nat) : Option (Nat × Nat) := s.captures[index]?.join

def advance (s : MatchState) (length : Nat) : MatchState :=
  { s with position := s.position + length }

def record (s : MatchState) (index start : Nat) : MatchState :=
  { s with captures := s.captures.set index (some (start, s.position)) }

end MatchState

abbrev MatchStates := Std.TreeSet MatchState MatchState.order

def distinct (states : List MatchState) : List MatchState :=
  (Std.TreeSet.ofList states MatchState.order).toList

@[simp] theorem mem_distinct {s : MatchState} {states : List MatchState} :
    s ∈ distinct states ↔ s ∈ states := by
  simp [distinct]

def spells (text : Array Char) : (position : Nat) → List Char → Bool
  | _, [] => true
  | i, c :: rest => text[i]? == some c && spells text (i + 1) rest

def stretch (text : Array Char) (start stop : Nat) : List Char := (text.extract start stop).toList

/-- All states that a body reaches when it is matched as often as a quantifier
allows.  The frontier holds the states after `count` rounds.  Past the minimum, a
state that was accepted before leads nowhere new. -/
def repeatStates (step : MatchState → List MatchState) (q : Quantifier) :
    (rounds count : Nat) → (accepted : MatchStates) → (frontier : List MatchState) →
      List MatchState
  | 0, _, accepted, _ => accepted.toList
  | rounds + 1, count, accepted, frontier =>
      let past := decide (q.min ≤ count)
      let frontier := if past then frontier.filter (!accepted.contains ·) else frontier
      let accepted := if past then accepted.insertMany frontier else accepted
      if frontier.isEmpty || q.exhausted count then accepted.toList
      else repeatStates step q rounds (count + 1) accepted (distinct (frontier.flatMap step))

/-- The states after further copies of a unit of which `count` end at `position`. -/
def copyStates (text : Array Char) (q : Quantifier) (captures : List (Option (Nat × Nat)))
    (unit : List Char) : (rounds count position : Nat) → List MatchState
  | 0, _, _ => []
  | rounds + 1, count, position =>
      let here := if q.min ≤ count then [⟨position, captures⟩] else []
      if q.exhausted count || !spells text position unit then here
      else here ++ copyStates text q captures unit rounds (count + 1) (position + unit.length)

/-- All states that a body reaches from `s` when every repetition spells the first
one again.  A unit that is empty repeats without moving. -/
def equalStates (text : Array Char) (step : MatchState → List MatchState) (q : Quantifier)
    (s : MatchState) : List MatchState :=
  let unrepeated := if q.min = 0 then [s] else []
  if q.exhausted 0 then unrepeated
  else unrepeated ++ (step s).flatMap fun first =>
    match stretch text s.position first.position with
    | [] => [first]
    | unit => copyStates text q first.captures unit (text.size + 1) 1 first.position

end PatternSampler
