import PatternSampler.Pattern.Node
import PatternSampler.Phrase.Basic

/-!
# From phrases to trees

The nodes of a phrase are numbered in the order in which they are completed, so
children come before their parents.  A node is marked if a marker stands before
its piece or before one around it; a marker before a quantifier marks the
repetition alone.
-/

namespace PatternSampler

/-- What holds the pieces of a branch together, and the branches of a choice. -/
inductive Joint
  | sequence
  | alternative

/-- A branch without pieces is the empty text. -/
def Joint.node : Joint → Tag → List Node → Node
  | sequence, tag, [] => .text tag []
  | sequence, tag, ns => .seq tag ns
  | alternative, tag, ns => .alt tag ns

structure NumberedGroup where
  index : Nat
  id : Nat
  body : Node

structure Numbering where
  next : Nat
  groups : List NumberedGroup

namespace Numbering

def start : Numbering := ⟨0, []⟩

def node (s : Numbering) (marked : Bool) (make : Tag → Node) : Node × Numbering :=
  (make ⟨s.next, marked⟩, { s with next := s.next + 1 })

def capture (s : Numbering) (marked : Bool) (index : Nat) (name : Option String) (body : Node) :
    Node × Numbering :=
  let numbered : Numbering := { s with groups := s.groups ++ [⟨index, s.next, body⟩] }
  numbered.node marked (.capture · index name body)

def group? (s : Numbering) (index : Nat) : Option NumberedGroup :=
  s.groups.find? (·.index == index)

/-- The node of several parts.  One that stands alone is its own node. -/
def join (s : Numbering) (marked : Bool) (joint : Joint) : List Node → Node × Numbering
  | [n] => (n, s)
  | ns => s.node marked (joint.node · ns)

end Numbering

namespace Phrase

mutual

/-- Numbers the nodes of a phrase.  A reference to a group that has not been
numbered stands for the empty text. -/
def number (marked : Bool) : Phrase → Numbering → Node × Numbering
  | text chars, s => s.node marked (.text · chars)
  | set members, s => s.node marked (.set · members)
  | group body, s =>
      let (n, s) := number marked body s
      s.node marked (.group · n)
  | capture index name body, s =>
      let (n, s) := number marked body s
      s.capture marked index name n
  | reference index, s =>
      match s.group? index with
      | some g => s.node marked (.backref · g.id index g.body)
      | none => s.node marked (.text · [])
  | rep own quantifier body, s =>
      let (n, s) := number marked body s
      s.node (marked || own) (.rep · quantifier n)
  | .marked piece, s => number true piece s
  | branch pieces, s =>
      let (ns, s) := numberEach marked pieces s
      s.join marked .sequence ns
  | choice branches, s =>
      let (ns, s) := numberEach marked branches s
      s.join marked .alternative ns

def numberEach (marked : Bool) : List Phrase → Numbering → List Node × Numbering
  | [], s => ([], s)
  | p :: rest, s =>
      let (n, s) := number marked p s
      let (ns, s) := numberEach marked rest s
      (n :: ns, s)

end

end Phrase

end PatternSampler
