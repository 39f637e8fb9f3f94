import PatternSampler.Generation.Error
import PatternSampler.Pattern.Route
import PatternSampler.Random.Draw

/-!
# Generation

A generator walks through a tree and draws a string that conforms to it.  Told to
invalidate a node, it breaks that node wherever it comes to it and keeps to the
route that leads there: alternatives take the branch on the route, and optional
repetitions on it happen at least once.
-/

namespace PatternSampler

/-- Draws that may fail.  The source stays advanced when they do. -/
abbrev Generation := ExceptT GenerationError (StateM Source)

def largestCount : Nat := Source.wordCount - 1

def defaultSlack : Nat := 10

structure Generator where
  /-- How many repetitions beyond its bounds a repetition may get. -/
  slack : Nat
  chosen : Option Nat
  route : Route

def Generation.number (draw : StateM Source (Option Nat)) : Generation Nat := do
  match ← (draw : Generation (Option Nat)) with
  | some n => pure n
  | none => throw .emptyRange

def Generation.character (node : Node) (c : CharClass) : Generation Char := do
  if c.selectable = 0 then throw (.emptyAlphabet node)
  let n ← number (Source.range 0 c.selectable)
  match c.nth? n with
  | some ch => pure ch
  | none => throw (.emptyAlphabet node)

/-- The strings of `count` runs, one after another, behind a string that is given
in reverse. -/
def Generation.repeatedAfter (unit : Generation (List Char)) (reversed : List Char) :
    (count : Nat) → Generation (List Char)
  | 0 => pure reversed.reverse
  | count + 1 => do
      let next ← unit
      repeatedAfter unit (next.reverseAux reversed) count

def Generation.repeated (unit : Generation (List Char)) (count : Nat) : Generation (List Char) :=
  repeatedAfter unit [] count

namespace Generation

theorem repeatedAfter_eq (unit : Generation (List Char)) (reversed : List Char) (count : Nat) :
    repeatedAfter unit reversed count = (reversed.reverse ++ ·) <$> repeated unit count := by
  induction count generalizing reversed with
  | zero => simp [repeated, repeatedAfter]
  | succ count ih =>
      simp only [repeated, repeatedAfter, map_bind]
      refine bind_congr fun next => ?_
      rw [ih, ih (next.reverseAux [])]
      simp [List.reverseAux_eq]

@[simp] theorem repeated_zero (unit : Generation (List Char)) : repeated unit 0 = pure [] := rfl

theorem repeated_succ (unit : Generation (List Char)) (count : Nat) :
    repeated unit (count + 1) = unit >>= fun first => (first ++ ·) <$> repeated unit count := by
  refine bind_congr fun first => ?_
  rw [repeatedAfter_eq]
  simp [List.reverseAux_eq]

end Generation

def copies (count : Nat) (unit : List Char) : List Char :=
  if unit.isEmpty then [] else (List.replicate count unit).flatten

namespace Generator

open Generation

def conforming (slack : Nat) : Generator := ⟨slack, none, []⟩

def invalidating (slack : Nat) (root : Node) (id : Nat) : Generator :=
  ⟨slack, some id, (root.routeTo? id).getD []⟩

def isChosen (g : Generator) (tag : Tag) : Bool := g.chosen == some tag.id

/-- A repetition count within the bounds.  One without an upper bound may exceed
the lower one by the slack. -/
def conformingCount (g : Generator) (tag : Tag) (q : Quantifier) : Generation Nat :=
  let min := if q.min = 0 ∧ (g.route.childAt? tag.id).isSome then 1 else q.min
  let max := q.max.getD (Nat.min (q.min + g.slack) largestCount)
  number (Source.between min (Nat.max min max))

/-- A repetition count outside of the bounds: below the lower one or up to the
slack above the upper one, where a coin decides if both are possible. -/
def violatingCount (g : Generator) (q : Quantifier) : Generation Nat :=
  match q.max with
  | none =>
      if 0 < q.min then number (Source.between 0 (q.min - 1)) else throw .impossibleInvalidation
  | some max => do
      let goBelow ← if 0 < q.min then (Source.coin : Generation Bool) else pure false
      if goBelow then number (Source.between 0 (q.min - 1))
      else number (Source.between (max + 1) (Nat.min (max + Nat.max g.slack 1) largestCount))

def count (g : Generator) (tag : Tag) (q : Quantifier) : Generation Nat :=
  if g.isChosen tag then g.violatingCount q else g.conformingCount tag q

def misspelled (node : Node) (chars : List Char) : Generation (List Char) := do
  if chars.isEmpty then throw .impossibleInvalidation
  let position ← number (Source.range 0 chars.length)
  match chars[position]? with
  | some c => do
      let other ← character node (.allExcept c)
      pure (chars.set position other)
  | none => throw .impossibleInvalidation

/-- The place of the branch to take among the children of an alternative. -/
def branch (g : Generator) (tag : Tag) (children : List Node) : Generation (Option Nat) :=
  match g.route.childAt? tag.id with
  | some child => pure (children.findIdx? (·.id == child))
  | none => (Source.range 0 children.length : Generation (Option Nat))

mutual

def generate (g : Generator) : Node → Generation (List Char)
  | .text tag chars => if g.isChosen tag then misspelled (.text tag chars) chars else pure chars
  | .set tag members => do
      let accepted := if g.isChosen tag then members.complement else members
      let c ← character (.set tag members) accepted
      pure [c]
  | .rep tag quantifier body => do
      let count ← g.count tag quantifier
      if quantifier.same then
        if count = 0 then pure []
        else do
          let unit ← generate g body
          pure (copies count unit)
      else repeated (generate g body) count
  | .seq _ children => generateEach g children
  | .alt tag children => do
      match ← g.branch tag children with
      | some place => generateAt g children place
      | none => pure []
  | .group _ body => generate g body
  | .capture _ _ _ body => generate g body
  | .backref _ _ _ body => generate g body

def generateEach (g : Generator) : List Node → Generation (List Char)
  | [] => pure []
  | n :: rest => do
      let first ← generate g n
      let others ← generateEach g rest
      pure (first ++ others)

def generateAt (g : Generator) : List Node → (place : Nat) → Generation (List Char)
  | [], _ => pure []
  | n :: _, 0 => generate g n
  | _ :: rest, place + 1 => generateAt g rest place

end

end Generator

end PatternSampler
