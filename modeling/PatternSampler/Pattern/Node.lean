import PatternSampler.CharClass.Basic
import PatternSampler.Pattern.Quantifier

/-!
# The syntax tree of a pattern

Every node has an identity, its place in the order in which the nodes are
completed, and tells whether it was written under an invalidation marker.  A
back reference carries the body of the group that it refers to but does not own
it: the walks below stay in the owned tree.
-/

namespace PatternSampler

structure Tag where
  id : Nat
  marked : Bool
deriving DecidableEq, Repr

inductive Node
  | text (tag : Tag) (chars : List Char)
  | set (tag : Tag) (members : CharClass)
  | rep (tag : Tag) (quantifier : Quantifier) (body : Node)
  | seq (tag : Tag) (children : List Node)
  | alt (tag : Tag) (children : List Node)
  | group (tag : Tag) (body : Node)
  | capture (tag : Tag) (index : Nat) (name : Option String) (body : Node)
  | backref (tag : Tag) (target : Nat) (index : Nat) (body : Node)

instance : Inhabited Node := ⟨.text ⟨0, false⟩ []⟩

/-- A node and the identity of the node that owns it. -/
structure Placed where
  parent : Option Nat
  node : Node

namespace Node

def tag : Node → Tag
  | text tag _ | set tag _ | rep tag _ _ | seq tag _ | alt tag _ | group tag _
  | capture tag _ _ _ | backref tag _ _ _ => tag

def id (n : Node) : Nat := n.tag.id

def marked (n : Node) : Bool := n.tag.marked

def canDeviate : Node → Bool
  | text _ chars => !chars.isEmpty
  | set _ members => !members.isFull
  | rep _ quantifier _ => quantifier.violable
  | _ => false

def children : Node → List Node
  | text .. | set .. | backref .. => []
  | rep _ _ body | group _ body | capture _ _ _ body => [body]
  | seq _ children | alt _ children => children

mutual

/-- All nodes of the tree under their owners, children before parents. -/
def placed (parent : Option Nat) : Node → List Placed
  | text tag chars => [⟨parent, text tag chars⟩]
  | set tag members => [⟨parent, set tag members⟩]
  | rep tag quantifier body => placed (some tag.id) body ++ [⟨parent, rep tag quantifier body⟩]
  | seq tag children => placedEach (some tag.id) children ++ [⟨parent, seq tag children⟩]
  | alt tag children => placedEach (some tag.id) children ++ [⟨parent, alt tag children⟩]
  | group tag body => placed (some tag.id) body ++ [⟨parent, group tag body⟩]
  | capture tag index name body =>
      placed (some tag.id) body ++ [⟨parent, capture tag index name body⟩]
  | backref tag target index body => [⟨parent, backref tag target index body⟩]

def placedEach (parent : Option Nat) : List Node → List Placed
  | [] => []
  | n :: rest => placed parent n ++ placedEach parent rest

end

def nodes (n : Node) : List Node := (n.placed none).map Placed.node

def ownEligible (n : Node) : List Node := if n.marked && n.canDeviate then [n] else []

mutual

/-- The marked nodes that can deviate, children before parents.  What stands
under a repetition of at most no times would only show if that broke as well. -/
def eligible : Node → List Node
  | text tag chars => ownEligible (text tag chars)
  | set tag members => ownEligible (set tag members)
  | rep tag quantifier body =>
      (if quantifier.max = some 0 then [] else eligible body) ++
        ownEligible (rep tag quantifier body)
  | seq _ children => eligibleEach children
  | alt _ children => eligibleEach children
  | group _ body => eligible body
  | capture _ _ _ body => eligible body
  | backref .. => []

def eligibleEach : List Node → List Node
  | [] => []
  | n :: rest => eligible n ++ eligibleEach rest

end

end Node

end PatternSampler
