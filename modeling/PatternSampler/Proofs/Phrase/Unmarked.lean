import PatternSampler.Proofs.Phrase.Numbering

/-!
# Erasing marks

Markers are written in a phrase and show as marks in its tree.  Erasing them before or
after the numbering comes to the same tree.
-/

namespace PatternSampler

def Tag.bare (tag : Tag) : Tag := { tag with marked := false }

namespace Node

mutual

def bare : Node → Node
  | text tag chars => text tag.bare chars
  | set tag members => set tag.bare members
  | rep tag quantifier body => rep tag.bare quantifier (bare body)
  | seq tag children => seq tag.bare (bareEach children)
  | alt tag children => alt tag.bare (bareEach children)
  | group tag body => group tag.bare (bare body)
  | capture tag index name body => capture tag.bare index name (bare body)
  | backref tag target index body => backref tag.bare target index (bare body)

def bareEach : List Node → List Node
  | [] => []
  | n :: rest => bare n :: bareEach rest

end

theorem bareEach_eq (ns : List Node) : bareEach ns = ns.map bare := by
  induction ns with
  | nil => rfl
  | cons n rest ih => simp [bareEach, ih]

theorem children_bare (n : Node) : n.bare.children = n.children.map bare := by
  cases n <;> simp [bare, children, bareEach_eq]

end Node

namespace Numbering

def bare (s : Numbering) : Numbering :=
  { s with groups := s.groups.map fun g => { g with body := g.body.bare } }

theorem bare_start : start.bare = start := rfl

theorem group?_bare (s : Numbering) (index : Nat) :
    s.bare.group? index = (s.group? index).map fun g => { g with body := g.body.bare } := by
  rw [group?, group?, bare, List.find?_map]
  rfl

theorem node_bare (s : Numbering) (marked : Bool) (make bareMake : Tag → Node)
    (h : ∀ tag, (make tag).bare = bareMake tag.bare) :
    s.bare.node false bareMake = ((s.node marked make).1.bare, (s.node marked make).2.bare) := by
  simp only [node, h]
  rfl

theorem bare_joint (joint : Joint) (tag : Tag) (ns : List Node) :
    (joint.node tag ns).bare = joint.node tag.bare (ns.map Node.bare) := by
  cases joint <;> cases ns <;> simp [Joint.node, Node.bare, Node.bareEach_eq]

theorem join_bare (s : Numbering) (marked : Bool) (joint : Joint) (ns : List Node) :
    s.bare.join false joint (ns.map Node.bare) =
      ((s.join marked joint ns).1.bare, (s.join marked joint ns).2.bare) := by
  have node := s.node_bare marked (joint.node · ns) (joint.node · (ns.map Node.bare))
    fun tag => bare_joint joint tag ns
  match ns with
  | [n] => rfl
  | [] | n :: m :: rest => exact node

end Numbering

namespace Phrase

mutual

def hasMarker : Phrase → Bool
  | text _ | set _ | reference _ => false
  | group body => hasMarker body
  | capture _ _ body => hasMarker body
  | rep isMarked _ body => isMarked || hasMarker body
  | marked _ => true
  | branch pieces => hasMarkerIn pieces
  | choice branches => hasMarkerIn branches

def hasMarkerIn : List Phrase → Bool
  | [] => false
  | p :: rest => hasMarker p || hasMarkerIn rest

end

mutual

def unmarked : Phrase → Phrase
  | text chars => text chars
  | set members => set members
  | group body => group (unmarked body)
  | capture index name body => capture index name (unmarked body)
  | reference index => reference index
  | rep _ quantifier body => rep false quantifier (unmarked body)
  | marked piece => unmarked piece
  | branch pieces => branch (unmarkedEach pieces)
  | choice branches => choice (unmarkedEach branches)

def unmarkedEach : List Phrase → List Phrase
  | [] => []
  | p :: rest => unmarked p :: unmarkedEach rest

end

theorem hasMarkerIn_eq (ps : List Phrase) : hasMarkerIn ps = ps.any hasMarker := by
  induction ps with
  | nil => rfl
  | cons p ps ih => rw [hasMarkerIn, ih, List.any_cons]

theorem unmarkedEach_eq (ps : List Phrase) : unmarkedEach ps = ps.map unmarked := by
  induction ps with
  | nil => rfl
  | cons p rest ih => simp [unmarkedEach, ih]

theorem hasMarker_unmarked (p : Phrase) : p.unmarked.hasMarker = false := by
  induction p with
  | text | set | reference => rfl
  | group body ih | capture index name body ih | rep own quantifier body ih | marked piece ih =>
      exact ih
  | branch ps ih | choice ps ih => simpa [unmarked, unmarkedEach_eq, hasMarker, hasMarkerIn_eq]

theorem WellFormed.unmarked {p : Phrase} (hp : p.WellFormed) : p.unmarked.WellFormed := by
  induction hp with
  | text chars => exact .text chars
  | set h => exact .set h
  | group h ih => exact .group ih
  | capture h ih => exact .capture ih
  | reference index => exact .reference index
  | rep hq h ih => exact .rep hq ih
  | marked h ih => exact ih
  | branch h ih =>
      rw [Phrase.unmarked, unmarkedEach_eq]
      exact .branch (by simpa using ih)
  | choice some h ih =>
      rw [Phrase.unmarked, unmarkedEach_eq]
      exact .choice (by simpa using some) (by simpa using ih)

theorem indexes_unmarked (p : Phrase) : p.unmarked.indexes = p.indexes := by
  induction p with
  | text | set | reference => rfl
  | group body ih => exact ih
  | capture index name body ih => exact congrArg (index :: ·) ih
  | rep own quantifier body ih => exact ih
  | marked piece ih => exact ih
  | branch ps ih | choice ps ih =>
      simp only [unmarked, indexes, unmarkedEach_eq, indexesIn_eq, List.flatMap_def, List.map_map]
      exact congrArg List.flatten (List.map_congr_left ih)

theorem numberEach_unmarked {ps : List Phrase}
    (ih : ∀ p ∈ ps, ∀ (marked : Bool) (s : Numbering),
      number false p.unmarked s.bare = ((number marked p s).1.bare, (number marked p s).2.bare))
    (marked : Bool) (s : Numbering) :
    numberEach false (unmarkedEach ps) s.bare =
      ((numberEach marked ps s).1.map Node.bare, (numberEach marked ps s).2.bare) := by
  induction ps generalizing s with
  | nil => rfl
  | cons p rest ihrest =>
      obtain ⟨hp, hrest⟩ := List.forall_mem_cons.1 ih
      simp only [unmarkedEach, numberEach, hp marked s, ihrest hrest, List.map_cons]

theorem number_unmarked (p : Phrase) (marked : Bool) (s : Numbering) :
    number false p.unmarked s.bare =
      ((number marked p s).1.bare, (number marked p s).2.bare) := by
  induction p generalizing marked s with
  | text | set => rfl
  | group body ih =>
      simp only [unmarked, number, ih marked s]
      exact Numbering.node_bare _ marked (.group · (number marked body s).1) _ fun _ => rfl
  | capture index name body ih =>
      simp only [unmarked, number, ih marked s]
      simp [Numbering.capture, Numbering.node, Numbering.bare, Node.bare, Tag.bare]
  | reference index =>
      simp only [unmarked, number, Numbering.group?_bare]
      cases s.group? index with
      | none => rfl
      | some g => rfl
  | rep own quantifier body ih =>
      simp only [unmarked, number, ih marked s]
      exact Numbering.node_bare _ (marked || own) (.rep · quantifier (number marked body s).1) _
        fun _ => rfl
  | marked piece ih => exact ih true s
  | branch ps ih | choice ps ih =>
      simp only [unmarked, number, numberEach_unmarked ih marked s, Numbering.join_bare _ marked]

end Phrase

end PatternSampler
