import PatternSampler.Proofs.Pattern.Tree

/-!
# Routes in a tree

In a tree without two nodes of one identity there is one way down to each node.  So the
route to an eligible node takes exactly the children that the node stands under, and no
repetition on it is barred.
-/

namespace PatternSampler

namespace Node

def Distinct (n : Node) : Prop := n.nodes.Pairwise fun k m => k.id ≠ m.id

variable {c d e k m n : Node}

theorem distinct_iff :
    n.Distinct ↔ (∀ c ∈ n.children, c.Distinct) ∧
      n.children.Pairwise (fun c d => ∀ k ∈ c.nodes, ∀ m ∈ d.nodes, k.id ≠ m.id) ∧
      ∀ c ∈ n.children, ∀ m ∈ c.nodes, m.id ≠ n.id := by
  rw [Distinct, nodes_eq, List.pairwise_append, List.pairwise_flatMap]
  simp only [List.pairwise_singleton, true_and, List.mem_flatMap, List.mem_singleton, forall_eq,
    forall_exists_index, and_imp, and_assoc, Distinct]
  refine and_congr_right fun _ => and_congr_right fun _ => ?_
  exact ⟨fun h c hc m hm => h m c hc hm, fun h m c hc hm => h c hc m hm⟩

theorem Distinct.child (h : n.Distinct) (child : c ∈ n.children) : c.Distinct :=
  (distinct_iff.1 h).1 c child

theorem Distinct.id_ne (h : n.Distinct) (child : c ∈ n.children) (below : m ∈ c.nodes) :
    m.id ≠ n.id :=
  (distinct_iff.1 h).2.2 c child m below

theorem Distinct.of_mem (h : n.Distinct) (owned : m ∈ n.nodes) : m.Distinct := by
  induction n using inductOwned with
  | node n ih =>
      rcases mem_nodes.1 owned with rfl | ⟨c, child, below⟩
      · exact h
      · exact ih c child (h.child child) below

theorem Distinct.eq_of_id_eq (h : n.Distinct) (hk : k ∈ n.nodes) (hm : m ∈ n.nodes)
    (same : k.id = m.id) : k = m := by
  have eq := List.Pairwise.forall_of_forall_of_flip (l := n.nodes)
    (R := fun k m => k.id = m.id → k = m) (fun _ _ _ => rfl) (h.imp fun ne same => absurd same ne)
    (h.imp fun ne same => absurd same.symm ne)
  exact eq hk hm same

theorem Distinct.child_eq (h : n.Distinct) (hc : c ∈ n.children) (hd : d ∈ n.children)
    (hk : k ∈ c.nodes) (hm : m ∈ d.nodes) (same : k.id = m.id) : c = d := by
  have apart := (distinct_iff.1 h).2.1
  have eq := List.Pairwise.forall_of_forall_of_flip (l := n.children)
    (R := fun c d => ∀ k ∈ c.nodes, ∀ m ∈ d.nodes, k.id = m.id → c = d)
    (fun _ _ _ _ _ _ _ => rfl)
    (apart.imp fun ne k hk m hm same => absurd same (ne k hk m hm))
    (apart.imp fun ne k hk m hm same => absurd same.symm (ne m hm k hk))
  exact eq hc hd k hk m hm same

theorem Distinct.eligible (h : n.Distinct) (he : e ∈ n.eligible) (hk : k ∈ n.nodes)
    (below : e ∈ k.nodes) : e ∈ k.eligible := by
  induction n using inductOwned with
  | node n ih =>
      rcases mem_nodes.1 hk with rfl | ⟨c, child, hk⟩
      · exact he
      · have under := mem_nodes_trans below hk
        rcases mem_eligible.1 he with ⟨-, d, hd, he⟩ | ⟨rfl, -⟩
        · have := h.child_eq hd child (mem_nodes_of_eligible he) under rfl
          subst this
          exact ih d hd (h.child hd) he hk
        · exact absurd rfl (h.id_ne child under)

end Node

theorem Route.isSome_childAt? {route : Route} {id : Nat} :
    (route.childAt? id).isSome = true ↔ ∃ turn ∈ route, turn.ancestor = id := by
  simp [childAt?]

theorem Route.of_childAt? {route : Route} {id child : Nat} (h : route.childAt? id = some child) :
    ∃ turn ∈ route, turn.ancestor = id ∧ turn.child = child := by
  obtain ⟨turn, found, rfl⟩ := Option.map_eq_some_iff.1 h
  exact ⟨turn, List.mem_of_find?_eq_some found, by simpa using List.find?_some found, rfl⟩

/-- The route leads from a node down to one with the given identity. -/
structure Route.LeadsTo (route : Route) (id : Nat) (n : Node) : Prop where
  ends : ∃ m ∈ n.nodes, m.id = id
  begins : n.id = id ∨ (route.childAt? n.id).isSome = true
  turns : ∀ turn ∈ route, ∃ k ∈ n.nodes, k.id = turn.ancestor ∧ ∃ c ∈ k.children,
    c.id = turn.child ∧ (∃ m ∈ c.nodes, m.id = id) ∧
      (c.id = id ∨ (route.childAt? c.id).isSome = true)

theorem Route.LeadsTo.cons {route : Route} {id : Nat} {c n : Node} (h : route.LeadsTo id c)
    (child : c ∈ n.children) : Route.LeadsTo (⟨n.id, c.id⟩ :: route) id n := by
  have more {other : Nat} (h : (Route.childAt? route other).isSome = true) :
      (Route.childAt? (⟨n.id, c.id⟩ :: route) other).isSome = true := by
    obtain ⟨turn, listed, same⟩ := Route.isSome_childAt?.1 h
    exact Route.isSome_childAt?.2 ⟨turn, List.mem_cons_of_mem _ listed, same⟩
  refine ⟨?_, .inr ?_, ?_⟩
  · obtain ⟨m, hm, same⟩ := h.ends
    exact ⟨m, Node.mem_nodes_of_child child hm, same⟩
  · exact Route.isSome_childAt?.2 ⟨_, List.mem_cons_self, rfl⟩
  · rw [List.forall_mem_cons]
    constructor
    · exact ⟨n, n.self_mem_nodes, rfl, c, child, rfl, h.ends, h.begins.imp_right more⟩
    · intro turn listed
      obtain ⟨k, hk, ancestor, d, hd, next, ends, begins⟩ := h.turns turn listed
      exact ⟨k, Node.mem_nodes_of_child child hk, ancestor, d, hd, next, ends,
        begins.imp_right more⟩

namespace Node

theorem leadsTo_of_routeTo? {id : Nat} {route : Route} {n : Node}
    (h : n.routeTo? id = some route) : route.LeadsTo id n := by
  induction n using inductOwned generalizing route with
  | node n ih =>
      rw [routeTo?_eq] at h
      split at h
      · rename_i here
        cases h
        exact ⟨⟨n, n.self_mem_nodes, here⟩, .inl here, by simp⟩
      · obtain ⟨c, child, found⟩ := List.exists_of_findSome?_eq_some h
        obtain ⟨rest, below, rfl⟩ := Option.map_eq_some_iff.1 found
        exact (ih c child below).cons child

theorem exists_routeTo? {m n : Node} (owned : m ∈ n.nodes) :
    ∃ route, n.routeTo? m.id = some route := by
  induction n using inductOwned with
  | node n ih =>
      rw [routeTo?_eq]
      split
      · exact ⟨_, rfl⟩
      · rename_i elsewhere
        rcases mem_nodes.1 owned with rfl | ⟨c, child, below⟩
        · exact absurd rfl elsewhere
        · obtain ⟨route, found⟩ := ih c child below
          rw [← Option.isSome_iff_exists, List.findSome?_isSome_iff]
          exact ⟨c, child, by simp [found]⟩

theorem turn_of_eligible {root e n : Node} (distinct : root.Distinct) (he : e ∈ root.eligible)
    {route : Route} (found : root.routeTo? e.id = some route) (owned : n ∈ root.nodes) {id : Nat}
    (turn : route.childAt? n.id = some id) :
    n.barred = false ∧ ∃ c ∈ n.children, c.id = id ∧
      (c.id = e.id ∨ (route.childAt? c.id).isSome = true) := by
  obtain ⟨here, listed, ancestor, next⟩ := Route.of_childAt? turn
  obtain ⟨k, hk, same, c, child, next', ⟨m, below, ends⟩, begins⟩ :=
    (leadsTo_of_routeTo? found).turns here listed
  obtain rfl : k = n := distinct.eq_of_id_eq hk owned (same.trans ancestor)
  have hm := mem_nodes_trans (mem_nodes_of_child child below) hk
  obtain rfl : m = e := distinct.eq_of_id_eq hm (mem_nodes_of_eligible he) ends
  have under := distinct.eligible he hk (mem_nodes_of_child child below)
  refine ⟨?_, c, child, next'.trans next, begins⟩
  rcases mem_eligible.1 under with ⟨free, -⟩ | ⟨rfl, -⟩
  · exact free
  · exact absurd rfl ((distinct.of_mem hk).id_ne child below)

end Node

end PatternSampler
