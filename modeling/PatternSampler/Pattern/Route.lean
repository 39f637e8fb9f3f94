import PatternSampler.Pattern.Node

/-!
# Routes

The route to a node names, for each of its ancestors from the root on, the child
that leads towards the node.
-/

namespace PatternSampler

structure Turn where
  ancestor : Nat
  child : Nat
deriving DecidableEq, Repr

abbrev Route := List Turn

def Route.childAt? (route : Route) (id : Nat) : Option Nat :=
  (route.find? (·.ancestor == id)).map Turn.child

namespace Node

mutual

def routeTo? (id : Nat) : Node → Option Route
  | text tag _ => if tag.id = id then some [] else none
  | set tag _ => if tag.id = id then some [] else none
  | rep tag _ body => if tag.id = id then some [] else
      (routeTo? id body).map (⟨tag.id, body.id⟩ :: ·)
  | seq tag children => if tag.id = id then some [] else routeAmong? id tag.id children
  | alt tag children => if tag.id = id then some [] else routeAmong? id tag.id children
  | group tag body => if tag.id = id then some [] else
      (routeTo? id body).map (⟨tag.id, body.id⟩ :: ·)
  | capture tag _ _ body => if tag.id = id then some [] else
      (routeTo? id body).map (⟨tag.id, body.id⟩ :: ·)
  | backref tag .. => if tag.id = id then some [] else none

def routeAmong? (id parent : Nat) : List Node → Option Route
  | [] => none
  | n :: rest =>
      match routeTo? id n with
      | some route => some (⟨parent, n.id⟩ :: route)
      | none => routeAmong? id parent rest

end

end Node

end PatternSampler
