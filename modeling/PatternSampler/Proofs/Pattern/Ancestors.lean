import Mathlib.Data.Set.Card
import PatternSampler.Proofs.Pattern.Arena

/-!
# Ancestors

A node below the root has one owner, and its ancestors are that owner and the ancestors of that
owner.  So what is said of the ancestors of all nodes is an induction from the root down, on
which the parent in the table, the route and the number of ancestors grow by one step at a time.
-/

namespace PatternSampler

namespace Node

variable {c d k m n root : Node}

@[elab_as_elim]
theorem inductFromRoot {motive : (n : Node) → n ∈ root.nodes → Prop}
    (start : motive root root.self_mem_nodes)
    (child : ∀ m (hm : m ∈ root.nodes), motive m hm → ∀ c (hc : c ∈ m.children),
      motive c (child_mem_nodes hc hm)) (owned : n ∈ root.nodes) : motive n owned := by
  induction root using inductOwned with
  | node root ih =>
      rcases mem_nodes.1 owned with rfl | ⟨c, hc, below⟩
      · exact start
      · exact ih c hc (motive := fun m hm => motive m (mem_nodes_of_child hc hm))
          (child root root.self_mem_nodes start c hc)
          (fun m hm => child m (mem_nodes_of_child hc hm)) below

theorem exists_owner (below : n ∈ k.nodes) (ne : n ≠ k) : ∃ m ∈ k.nodes, n ∈ m.children := by
  induction k using inductOwned with
  | node k ih =>
      obtain ⟨c, hc, below⟩ := (mem_nodes.1 below).resolve_left ne
      by_cases here : n = c
      · exact ⟨k, k.self_mem_nodes, here ▸ hc⟩
      · obtain ⟨m, hm, child⟩ := ih c hc below here
        exact ⟨m, mem_nodes_of_child hc hm, child⟩

theorem Distinct.owner_eq (h : root.Distinct) (hm : m ∈ root.nodes) (hk : k ∈ root.nodes)
    (first : c ∈ m.children) (second : c ∈ k.children) : k = m := by
  by_contra ne
  obtain ⟨-, -, alone⟩ := h.owner hm first
  exact alone k hk (fun same => ne (h.eq_of_id_eq hk hm same)) (List.mem_map_of_mem second)

theorem Distinct.routeTo?_below (h : root.Distinct) (hd : d ∈ root.children) (below : n ∈ d.nodes) :
    root.routeTo? n.id = (d.routeTo? n.id).map (⟨root.id, d.id⟩ :: ·) := by
  obtain ⟨route, found⟩ := exists_routeTo? (mem_nodes_of_child hd below)
  rw [found]
  rw [routeTo?_eq, if_neg (h.id_ne hd below).symm] at found
  obtain ⟨c, hc, found⟩ := List.exists_of_findSome?_eq_some found
  obtain ⟨rest, inner, rfl⟩ := Option.map_eq_some_iff.1 found
  obtain ⟨m, hm, same⟩ := (leadsTo_of_routeTo? inner).ends
  obtain rfl := h.child_eq hc hd hm below same
  rw [inner, Option.map_some]

theorem Distinct.routeTo?_child (h : root.Distinct) (hm : m ∈ root.nodes) (child : c ∈ m.children)
    {route : Route} (found : root.routeTo? m.id = some route) :
    root.routeTo? c.id = some (route ++ [⟨m.id, c.id⟩]) := by
  induction root using inductOwned generalizing route with
  | node root ih =>
      rcases mem_nodes.1 hm with rfl | ⟨d, hd, below⟩
      · rw [routeTo?_eq, if_pos rfl] at found
        cases found
        rw [h.routeTo?_below child c.self_mem_nodes, routeTo?_eq, if_pos rfl]
        rfl
      · rw [h.routeTo?_below hd below] at found
        obtain ⟨rest, inner, rfl⟩ := Option.map_eq_some_iff.1 found
        rw [h.routeTo?_below hd (child_mem_nodes child below), ih d hd (h.child hd) below inner]
        rfl

end Node

namespace Pattern

/-- The nodes that own a node, at first hand or not. -/
def ancestors (p : Pattern) (n : Node) : Set Node := {m | m ∈ p.root.nodes ∧ m ≠ n ∧ n ∈ m.nodes}

def parent? (p : Pattern) (id : Nat) : Option Nat :=
  (p.root.placed none)[id]?.bind Placed.parent

namespace WellFormed

variable {p : Pattern} {c k m n : Node}

theorem mem_ancestors_child (hp : p.WellFormed) (hm : m ∈ p.root.nodes) (child : c ∈ m.children) :
    k ∈ p.ancestors c ↔ k ∈ p.root.nodes ∧ m ∈ k.nodes := by
  constructor
  · rintro ⟨hk, ne, below⟩
    obtain ⟨owner, inside, owns⟩ := Node.exists_owner below ne.symm
    have same := hp.distinct.owner_eq hm (Node.mem_nodes_trans inside hk) child owns
    exact ⟨hk, same ▸ inside⟩
  · rintro ⟨hk, inside⟩
    refine ⟨hk, ?_, Node.child_mem_nodes child inside⟩
    rintro rfl
    have := hp.id_lt_of_child hm child
    have := hp.id_le_of_below hk inside
    omega

theorem ancestors_child (hp : p.WellFormed) (hm : m ∈ p.root.nodes) (child : c ∈ m.children) :
    p.ancestors c = insert m (p.ancestors m) := by
  ext k
  rw [hp.mem_ancestors_child hm child, Set.mem_insert_iff]
  constructor
  · rintro ⟨hk, inside⟩
    by_cases same : k = m
    · exact .inl same
    · exact .inr ⟨hk, same, inside⟩
  · rintro (rfl | ⟨hk, -, inside⟩)
    · exact ⟨hm, k.self_mem_nodes⟩
    · exact ⟨hk, inside⟩

theorem ancestors_root (hp : p.WellFormed) : p.ancestors p.root = ∅ := by
  refine Set.eq_empty_of_forall_notMem fun m ⟨hm, ne, below⟩ => ne ?_
  have le := hp.id_le_of_below hm below
  have le' := hp.id_le_of_below p.root.self_mem_nodes hm
  exact hp.distinct.eq_of_id_eq hm p.root.self_mem_nodes (Nat.le_antisymm le' le)

theorem parent?_eq (hp : p.WellFormed) {q : Placed} (listed : q ∈ p.root.placed none) :
    p.parent? q.node.id = q.parent := by
  obtain ⟨i, place⟩ := List.mem_iff_getElem?.1 listed
  have node : p.root.nodes[i]? = some q.node := by
    rw [Node.nodes, List.getElem?_map, place, Option.map_some]
  rw [parent?, (hp.getElem?_iff.1 node).2, place, Option.bind_some]

theorem parent?_root (hp : p.WellFormed) : p.parent? p.root.id = none :=
  hp.parent?_eq (q := ⟨none, p.root⟩) (Node.mem_placed.2 (.inl rfl))

theorem parent?_child (hp : p.WellFormed) (hm : m ∈ p.root.nodes) (child : c ∈ m.children) :
    p.parent? c.id = some m.id :=
  hp.parent?_eq (q := ⟨some m.id, c⟩) (Node.mem_placed.2 (.inr ⟨m, hm, c, child, rfl⟩))

end WellFormed

end Pattern

end PatternSampler
