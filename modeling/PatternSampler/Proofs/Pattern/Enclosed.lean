import PatternSampler.Proofs.Generation.Alike
import PatternSampler.Proofs.Matching.Exact
import PatternSampler.Proofs.Pattern.Routes
import PatternSampler.Proofs.Phrase.Enclosing
import PatternSampler.Proofs.Synthesis

/-!
# What an enclosed subtree does

A group that captures nothing is transparent.  A tree with one more of them matches the same
texts, has the same eligible nodes in the same order, and generates the same strings from the
same draws, whichever node is to be broken.
-/

namespace PatternSampler

variable {k : Nat}

namespace Node

theorem nodes_enclosed (n : Node) : (n.enclosed k).nodes = n.nodes.flatMap fun m =>
    if m.id = k then [m.raised k, .group ⟨k + 1, m.marked⟩ (m.raised k)] else [m.raised k] := by
  induction n using inductOwned with
  | node n ih =>
      have raised : (n.raised k).nodes = (n.children.flatMap nodes).flatMap (fun m =>
          if m.id = k then [m.raised k, .group ⟨k + 1, m.marked⟩ (m.raised k)]
          else [m.raised k]) ++ [n.raised k] := by
        rw [nodes_eq, children_raised, List.flatMap_map, List.flatMap_assoc]
        exact congrArg (· ++ [n.raised k]) (List.flatMap_congr ih)
      rw [nodes_eq n, List.flatMap_append, List.flatMap_singleton]
      by_cases same : n.id = k
      · rw [enclosed_of_eq same, nodes_eq, children, List.flatMap_singleton, raised, if_pos same,
          List.append_assoc]
        rfl
      · rw [enclosed_of_ne same, raised, if_neg same]

theorem canDeviate_raised (n : Node) : (n.raised k).canDeviate = n.canDeviate := by
  cases n <;> rfl

theorem barred_raised (n : Node) : (n.raised k).barred = n.barred := by
  cases n <;> rfl

theorem eligible_enclosed_eq (n : Node) : (n.enclosed k).eligible = (n.raised k).eligible := by
  by_cases same : n.id = k
  · rw [enclosed_of_eq same, eligible]
  · rw [enclosed_of_ne same]

theorem eligible_enclosed (n : Node) : (n.enclosed k).eligible = n.eligible.map (raised k) := by
  induction n using inductOwned with
  | node n ih =>
      have own : (n.raised k).ownEligible = n.ownEligible.map (raised k) := by
        rw [ownEligible, ownEligible, marked_raised, canDeviate_raised]
        split <;> rfl
      have below : (n.raised k).children.flatMap eligible =
          (n.children.flatMap eligible).map (raised k) := by
        rw [children_raised, List.flatMap_map, List.map_flatMap]
        exact List.flatMap_congr ih
      rw [eligible_enclosed_eq, eligible_eq, eligible_eq n, own, below, barred_raised,
        List.map_append]
      split <;> rfl

theorem states_enclosed (text : Array Char) (n : Node) :
    (n.enclosed k).states text = n.states text := by
  have around (m : Node) : (m.around k).states text = m.states text := by
    unfold Node.around
    split <;> rfl
  rw [enclosed, around]
  have inside {m : Node} (h : (m.raised k).states text = m.states text) :
      (m.enclosed k).states text = m.states text := (around _).trans h
  induction n with
  | text | set | backref => rfl
  | rep tag quantifier body ih =>
      funext s
      simp only [raised, states, around, ih]
  | seq tag children ih =>
      funext s
      rw [raised, enclosedEach_eq, states, states, statesAfter_map fun n hn => inside (ih n hn)]
  | alt tag children ih =>
      funext s
      rw [raised, enclosedEach_eq, states, states, statesAmong_map fun n hn => inside (ih n hn)]
  | group tag body ih => exact inside ih
  | capture tag index name body ih =>
      funext s
      simp only [raised, states, around, ih]

end Node

def topAbove (k id : Nat) : Nat := if id = k then k + 1 else raiseAbove k id

theorem topAbove_inj {id id' : Nat} : topAbove k id = topAbove k id' ↔ id = id' := by
  unfold topAbove raiseAbove
  split <;> split <;> (try split) <;> (try split) <;> omega

theorem Node.id_enclosed (n : Node) : (n.enclosed k).id = topAbove k n.id := by
  unfold topAbove
  split
  · rename_i same
    rw [enclosed_of_eq same]
    rfl
  · rename_i other
    rw [enclosed_of_ne other, id_raised]

theorem raiseAbove_ne_succ (id : Nat) : raiseAbove k id ≠ k + 1 := by
  unfold raiseAbove
  split <;> omega

/-- The second route takes the same turns in the tree with the group. -/
def Route.Bends (k : Nat) (route route' : Route) : Prop :=
  ∀ id, route'.childAt? (raiseAbove k id) = (route.childAt? id).map (topAbove k)

namespace Route

variable {route route' : Route}

theorem childAt?_cons (turn : Turn) (route : Route) (id : Nat) : childAt? (turn :: route) id =
    if turn.ancestor = id then some turn.child else childAt? route id := by
  by_cases same : turn.ancestor = id <;> simp [childAt?, same]

theorem Bends.nil : Bends k [] [] := fun _ => rfl

theorem Bends.cons (h : Bends k route route') (ancestor child : Nat) :
    Bends k (⟨ancestor, child⟩ :: route) (⟨raiseAbove k ancestor, topAbove k child⟩ :: route') := by
  intro id
  rw [childAt?_cons, childAt?_cons, h id]
  by_cases same : ancestor = id
  · simp [same]
  · rw [if_neg (by rwa [raiseAbove_inj]), if_neg same]

theorem Bends.enter (h : Bends k route route') (child : Nat) :
    Bends k route (⟨k + 1, child⟩ :: route') := by
  intro id
  rw [childAt?_cons, if_neg (raiseAbove_ne_succ id).symm, h id]

end Route

namespace Node

theorem routeTo?_enclosed (id : Nat) (n : Node) :
    Option.Rel (Route.Bends k) (n.routeTo? id) ((n.enclosed k).routeTo? (raiseAbove k id)) := by
  have each {cs : List Node} (parent : Nat)
      (ih : ∀ c ∈ cs, Option.Rel (Route.Bends k) (c.routeTo? id)
        ((c.enclosed k).routeTo? (raiseAbove k id))) :
      Option.Rel (Route.Bends k)
        (cs.findSome? fun c => (c.routeTo? id).map (⟨parent, c.id⟩ :: ·))
        ((cs.map (enclosed k)).findSome? fun c =>
          (c.routeTo? (raiseAbove k id)).map (⟨raiseAbove k parent, c.id⟩ :: ·)) := by
    induction cs with
    | nil => exact .none
    | cons c cs ihrest =>
        obtain ⟨hc, hrest⟩ := List.forall_mem_cons.1 ih
        rw [List.map_cons, List.findSome?_cons, List.findSome?_cons, id_enclosed]
        generalize c.routeTo? id = found at hc ⊢
        generalize (c.enclosed k).routeTo? (raiseAbove k id) = found' at hc ⊢
        cases hc with
        | none => exact ihrest hrest
        | some bends => exact .some (bends.cons parent c.id)
  induction n using inductOwned with
  | node n ih =>
      have raised : Option.Rel (Route.Bends k) (n.routeTo? id)
          ((n.raised k).routeTo? (raiseAbove k id)) := by
        rw [routeTo?_eq id n, routeTo?_eq _ (n.raised k), id_raised, children_raised]
        by_cases same : n.id = id
        · rw [if_pos (congrArg _ same), if_pos same]
          exact .some .nil
        · have other : raiseAbove k n.id ≠ raiseAbove k id := fun eq => same (raiseAbove_inj.1 eq)
          rw [if_neg same, if_neg other]
          exact each n.id ih
      by_cases same : n.id = k
      · rw [enclosed_of_eq same, routeTo?, if_neg (raiseAbove_ne_succ id).symm]
        generalize n.routeTo? id = found at raised ⊢
        generalize (n.raised k).routeTo? (raiseAbove k id) = found' at raised ⊢
        cases raised with
        | none => exact .none
        | some bends => exact .some (bends.enter _)
      · rwa [enclosed_of_ne same]

end Node

/-! ## Generation -/

namespace Generator

open Generation (Alike)

/-- The second generator does in the tree with the group what the first one does without. -/
structure Bends (k : Nat) (g g' : Generator) : Prop where
  slack : g'.slack = g.slack
  chosen : g'.chosen = g.chosen.map (raiseAbove k)
  route : Route.Bends k g.route g'.route

variable {g g' : Generator}

theorem bends_conforming (slack : Nat) : Bends k (conforming slack) (conforming slack) :=
  ⟨rfl, rfl, .nil⟩

theorem bends_invalidating (slack : Nat) (root : Node) (id : Nat) :
    Bends k (invalidating slack root id)
      (invalidating slack (root.enclosed k) (raiseAbove k id)) := by
  refine ⟨rfl, rfl, ?_⟩
  have bends := root.routeTo?_enclosed (k := k) id
  unfold invalidating
  generalize root.routeTo? id = found at bends ⊢
  generalize (root.enclosed k).routeTo? (raiseAbove k id) = found' at bends ⊢
  cases bends with
  | none => exact .nil
  | some bends => exact bends

namespace Bends

theorem isChosen (h : Bends k g g') (tag : Tag) : g'.isChosen (tag.raise k) = g.isChosen tag := by
  rw [Generator.isChosen, Generator.isChosen, h.chosen]
  cases g.chosen with
  | none => rfl
  | some id =>
      rw [Option.map_some, Tag.raise, Bool.eq_iff_iff]
      simp [raiseAbove_inj]

theorem count (h : Bends k g g') (tag : Tag) (q : Quantifier) :
    g'.count (tag.raise k) q = g.count tag q := by
  have turn : (g'.route.childAt? (tag.raise k).id).isSome = (g.route.childAt? tag.id).isSome := by
    rw [Tag.raise, h.route, Option.isSome_map]
  have conforming : g'.conformingCount (tag.raise k) q = g.conformingCount tag q := by
    rw [conformingCount, conformingCount, turn, h.slack]
  have violating : g'.violatingCount q = g.violatingCount q := by
    rw [violatingCount, violatingCount, h.slack]
  rw [Generator.count, Generator.count, h.isChosen, conforming, violating]

theorem branch (h : Bends k g g') (tag : Tag) (children : List Node) :
    g'.branch (tag.raise k) (children.map (Node.enclosed k)) = g.branch tag children := by
  have turn : g'.route.childAt? (tag.raise k).id = (g.route.childAt? tag.id).map (topAbove k) :=
    h.route tag.id
  rw [Generator.branch, Generator.branch, turn]
  cases g.route.childAt? tag.id with
  | none => simp
  | some child =>
      have same (n : Node) : ((n.enclosed k).id == topAbove k child) = (n.id == child) := by
        rw [Bool.eq_iff_iff, beq_iff_eq, beq_iff_eq, Node.id_enclosed, topAbove_inj]
      simp only [Option.map_some, List.findIdx?_map, Function.comp_def, same]

theorem alike_generateEach {ns : List Node}
    (each : ∀ n ∈ ns, Alike (g.generate n) (g'.generate (n.enclosed k))) :
    Alike (g.generateEach ns) (g'.generateEach (ns.map (Node.enclosed k))) := by
  induction ns with
  | nil => exact .refl _
  | cons n rest ih =>
      obtain ⟨hn, hrest⟩ := List.forall_mem_cons.1 each
      exact hn.bind fun first => (ih hrest).bind fun others => .refl _

theorem alike_generateAt {ns : List Node}
    (each : ∀ n ∈ ns, Alike (g.generate n) (g'.generate (n.enclosed k))) (place : Nat) :
    Alike (g.generateAt ns place) (g'.generateAt (ns.map (Node.enclosed k)) place) := by
  induction ns generalizing place with
  | nil => exact .refl _
  | cons n rest ih =>
      obtain ⟨hn, hrest⟩ := List.forall_mem_cons.1 each
      cases place with
      | zero => exact hn
      | succ place => exact ih hrest place

theorem alike_generate (h : Bends k g g') (n : Node) :
    Alike (g.generate n) (g'.generate (n.enclosed k)) := by
  have around (m : Node) : g'.generate (m.around k) = g'.generate m := by
    unfold Node.around
    split
    · rw [Generator.generate]
    · rfl
  have inside {n : Node} (ih : Alike (g.generate n) (g'.generate (n.raised k))) :
      Alike (g.generate n) (g'.generate (n.enclosed k)) := by
    rwa [Node.enclosed, around]
  apply inside
  induction n with
  | text tag chars =>
      simp only [Node.raised, Generator.generate, h.isChosen]
      have same : (Node.text (tag.raise k) chars).describe = (Node.text tag chars).describe := rfl
      split
      · exact Generation.alike_misspelled same chars
      · exact .refl _
  | set tag members =>
      simp only [Node.raised, Generator.generate, h.isChosen]
      have same : (Node.set (tag.raise k) members).describe = (Node.set tag members).describe := rfl
      exact (Generation.alike_character same _).bind fun _ => .refl _
  | rep tag quantifier body ih =>
      simp only [Node.raised, Generator.generate, h.count, around]
      refine Alike.bind (.refl _) fun count => ?_
      split
      · split
        · exact .refl _
        · exact ih.bind fun _ => .refl _
      · exact ih.repeated count
  | seq tag children ih =>
      simp only [Node.raised, Node.enclosedEach_eq, Generator.generate]
      exact alike_generateEach fun n hn => inside (ih n hn)
  | alt tag children ih =>
      simp only [Node.raised, Node.enclosedEach_eq, Generator.generate, h.branch]
      refine Alike.bind (.refl _) fun taken => ?_
      cases taken with
      | none => exact .refl _
      | some place => exact alike_generateAt (fun n hn => inside (ih n hn)) place
  | group tag body ih | capture tag index name body ih | backref tag target index body ih =>
      simpa only [Node.raised, Generator.generate, around] using ih

end Bends

end Generator

/-! ## The whole pattern -/

theorem sample_map {α β : Type} (f : α → β) (items : List α) :
    Source.sample (items.map f) = Option.map f <$> Source.sample items := by
  rw [Source.sample, Source.sample, List.length_map, map_bind]
  refine bind_congr fun index => ?_
  cases index with
  | none => rfl
  | some i => simp

namespace Pattern

open Generation (Alike)

variable {p p' : Pattern}

/-- The second pattern has one more group, around the node `k`. -/
structure Encloses (k : Nat) (p p' : Pattern) : Prop where
  root : p'.root = p.root.enclosed k
  hasMarker : p'.hasMarker = p.hasMarker
  captureCount : p'.captureCount = p.captureCount

theorem WellFormed.nodes_enclosed (hp : p.WellFormed) {n : Node} (owned : n ∈ p.root.nodes)
    (place : n.id = k) : (p.root.enclosed k).nodes =
      (p.root.nodes.take (k + 1)).map (Node.raised k) ++ .group ⟨k + 1, n.marked⟩ (n.raised k) ::
        (p.root.nodes.drop (k + 1)).map (Node.raised k) := by
  obtain ⟨within, found⟩ := List.getElem?_eq_some_iff.1 (hp.getElem?_iff.2 ⟨owned, place⟩)
  have split : p.root.nodes = p.root.nodes.take k ++ n :: p.root.nodes.drop (k + 1) := by
    rw [← found, List.getElem_cons_drop, List.take_append_drop]
  have upTo : p.root.nodes.take (k + 1) = p.root.nodes.take k ++ [n] := by
    rw [← found, List.take_append_getElem]
  have distinct := hp.distinct
  rw [Node.Distinct, split, List.pairwise_append, List.pairwise_cons] at distinct
  have others {ms : List Node} (other : ∀ m ∈ ms, m.id ≠ k) : (ms.flatMap fun m =>
      if m.id = k then [m.raised k, .group ⟨k + 1, m.marked⟩ (m.raised k)] else [m.raised k]) =
      ms.map (Node.raised k) := by
    rw [List.map_eq_flatMap]
    exact List.flatMap_congr fun m hm => if_neg (other m hm)
  have before := others fun m hm => place ▸ distinct.2.2 m hm n List.mem_cons_self
  have behind := others fun m hm => place ▸ (distinct.2.1.1 m hm).symm
  rw [Node.nodes_enclosed, upTo]
  conv_lhs => rw [split]
  simp [before, behind, place]

namespace Encloses

theorem eligible_eq (h : p.Encloses k p') : p'.eligible = p.eligible.map (Node.raised k) := by
  rw [eligible, h.root, Node.eligible_enclosed]
  rfl

theorem isMatch_eq (h : p.Encloses k p') (text : List Char) : p'.isMatch text = p.isMatch text := by
  rw [isMatch, isMatch, h.root, h.captureCount, Node.states_enclosed]

theorem alike_steered (h : p.Encloses k p') (slack : Nat) :
    Alike (p.steered slack) (p'.steered slack) := by
  have choose : p'.choose = Node.raised k <$> p.choose := by
    rw [Pattern.choose, Pattern.choose, h.eligible_eq, sample_map, map_bind, liftM_map,
      bind_map_left]
    refine bind_congr fun drawn => ?_
    cases drawn with
    | none => rfl
    | some node => rfl
  rw [steered, steered, choose, h.root, bind_map_left]
  refine Alike.bind (.refl _) fun node => ?_
  rw [Node.id_raised]
  exact Generator.Bends.alike_generate (Generator.bends_invalidating slack p.root node.id) _

/-- The results of a synthesis differ at most in the identity of a node that an error names. -/
theorem report_eq (h : p.Encloses k p') {source source' : String} (parsed : parse source = .ok p)
    (parsed' : parse source' = .ok p') (slack : Nat) (seed : UInt64) :
    (synthesizeSeeded source' slack seed).mapError GenerationError.report =
      (synthesizeSeeded source slack seed).mapError GenerationError.report := by
  have bound {α β : Type} {x x' : Except GenerationError α}
      (same : x'.mapError GenerationError.report = x.mapError GenerationError.report)
      (next : α → Except GenerationError β) :
      (x'.bind next).mapError GenerationError.report =
        (x.bind next).mapError GenerationError.report := by
    cases x with
    | ok a =>
        cases x' <;> cases same
        rfl
    | error e =>
        cases x' with
        | ok a' => cases same
        | error e' => exact congrArg Except.error (Except.error.inj same)
  cases marked : p.hasMarker with
  | true =>
      have steered := (h.alike_steered slack (.ofSeed seed)).1
      rw [synthesizeSeeded_marked parsed marked,
        synthesizeSeeded_marked parsed' (h.hasMarker.trans marked)]
      simp only [h.isMatch_eq]
      exact bound steered _
  | false =>
      have bends := Generator.bends_conforming (k := k) slack
      have generated := (bends.alike_generate p.root (.ofSeed seed)).1
      rw [synthesizeSeeded_unmarked parsed marked,
        synthesizeSeeded_unmarked parsed' (h.hasMarker.trans marked), h.root]
      exact bound generated (fun w => .ok (String.ofList w))

end Encloses

end Pattern

end PatternSampler
