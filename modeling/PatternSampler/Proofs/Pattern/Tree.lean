import PatternSampler.Pattern.Node
import PatternSampler.Pattern.Route

/-!
# The owned tree

The walks over a tree are mutual recursions on nodes and lists of nodes.  Here each
of them gets one equation in terms of the children of a node, so that facts about the
owned tree are inductions on children and no proof opens the walks again.
-/

namespace PatternSampler.Node

@[elab_as_elim, induction_eliminator]
theorem induct {motive : Node → Prop}
    (text : ∀ tag chars, motive (.text tag chars))
    (set : ∀ tag members, motive (.set tag members))
    (rep : ∀ tag quantifier body, motive body → motive (.rep tag quantifier body))
    (seq : ∀ tag children, (∀ n ∈ children, motive n) → motive (.seq tag children))
    (alt : ∀ tag children, (∀ n ∈ children, motive n) → motive (.alt tag children))
    (group : ∀ tag body, motive body → motive (.group tag body))
    (capture : ∀ tag index name body, motive body → motive (.capture tag index name body))
    (backref : ∀ tag target index body, motive body → motive (.backref tag target index body))
    (n : Node) : motive n :=
  Node.rec (motive_1 := motive) (motive_2 := fun ns => ∀ n ∈ ns, motive n)
    text set rep seq alt group capture backref (by simp)
    (fun _ _ first others => List.forall_mem_cons.2 ⟨first, others⟩) n

@[elab_as_elim]
theorem inductOwned {motive : Node → Prop}
    (node : ∀ n : Node, (∀ c ∈ n.children, motive c) → motive n) (n : Node) : motive n := by
  induction n with
  | text tag chars => exact node _ (by simp [children])
  | set tag members => exact node _ (by simp [children])
  | rep tag quantifier body ih => exact node _ (by simpa [children] using ih)
  | seq tag children ih => exact node _ ih
  | alt tag children ih => exact node _ ih
  | group tag body ih => exact node _ (by simpa [children] using ih)
  | capture tag index name body ih => exact node _ (by simpa [children] using ih)
  | backref tag target index body _ => exact node _ (by simp [children])

theorem placed_node_eq (parent : Option Nat) (n : Node) :
    (n.placed parent).map Placed.node = n.nodes := by
  cases n <;> simp [nodes, placed]

theorem placedEach_node_eq (parent : Option Nat) (ns : List Node) :
    (placedEach parent ns).map Placed.node = ns.flatMap nodes := by
  induction ns with
  | nil => simp [placedEach]
  | cons n rest ih => simp [placedEach, placed_node_eq, ih]

theorem nodes_eq (n : Node) : n.nodes = n.children.flatMap nodes ++ [n] := by
  rw [← placed_node_eq none]
  cases n <;> simp [placed, children, placed_node_eq, placedEach_node_eq]

theorem mem_nodes {m n : Node} :
    m ∈ n.nodes ↔ m = n ∨ ∃ c ∈ n.children, m ∈ c.nodes := by
  rw [nodes_eq]
  simp [or_comm]

theorem forall_mem_nodes {motive : Node → Prop} {n : Node} :
    (∀ m ∈ n.nodes, motive m) ↔ motive n ∧ ∀ c ∈ n.children, ∀ m ∈ c.nodes, motive m := by
  simp only [nodes_eq n, List.mem_append, List.mem_flatMap, List.mem_singleton]
  constructor
  · intro h
    exact ⟨h n (.inr rfl), fun c hc m hm => h m (.inl ⟨c, hc, hm⟩)⟩
  · rintro ⟨hn, hchildren⟩ m (⟨c, hc, hm⟩ | rfl)
    · exact hchildren c hc m hm
    · exact hn

theorem self_mem_nodes (n : Node) : n ∈ n.nodes := mem_nodes.2 (.inl rfl)

theorem mem_nodes_of_child {c m n : Node} (child : c ∈ n.children) (owned : m ∈ c.nodes) :
    m ∈ n.nodes :=
  mem_nodes.2 (.inr ⟨c, child, owned⟩)

theorem mem_nodes_trans {k m n : Node} (inner : m ∈ k.nodes) (outer : k ∈ n.nodes) :
    m ∈ n.nodes := by
  induction n using inductOwned with
  | node n ih =>
      rcases mem_nodes.1 outer with rfl | ⟨c, child, below⟩
      · exact inner
      · exact mem_nodes_of_child child (ih c child below)

theorem child_mem_nodes {c n root : Node} (child : c ∈ n.children) (owned : n ∈ root.nodes) :
    c ∈ root.nodes :=
  mem_nodes_trans (mem_nodes_of_child child (self_mem_nodes c)) owned

def barred : Node → Bool
  | rep _ quantifier _ => quantifier.max = some 0
  | _ => false

theorem eligibleEach_eq (ns : List Node) : eligibleEach ns = ns.flatMap eligible := by
  induction ns with
  | nil => simp [eligibleEach]
  | cons n rest ih => simp [eligibleEach, ih]

theorem eligible_eq (n : Node) :
    n.eligible = (if n.barred then [] else n.children.flatMap eligible) ++ n.ownEligible := by
  cases n <;>
    simp [eligible, barred, children, ownEligible, canDeviate, eligibleEach_eq]

theorem mem_ownEligible {e n : Node} :
    e ∈ n.ownEligible ↔ e = n ∧ n.marked = true ∧ n.canDeviate = true := by
  unfold ownEligible
  split <;> simp_all

theorem mem_eligible {e n : Node} :
    e ∈ n.eligible ↔ (n.barred = false ∧ ∃ c ∈ n.children, e ∈ c.eligible) ∨
      (e = n ∧ n.marked = true ∧ n.canDeviate = true) := by
  rw [eligible_eq, List.mem_append, mem_ownEligible]
  cases n.barred <;> simp

theorem mem_nodes_of_eligible {e n : Node} (h : e ∈ n.eligible) : e ∈ n.nodes := by
  induction n using inductOwned with
  | node n ih =>
      rcases mem_eligible.1 h with ⟨-, c, child, below⟩ | ⟨rfl, -⟩
      · exact mem_nodes_of_child child (ih c child below)
      · exact self_mem_nodes e

theorem canDeviate_of_eligible {e n : Node} (h : e ∈ n.eligible) : e.canDeviate = true := by
  induction n using inductOwned with
  | node n ih =>
      rcases mem_eligible.1 h with ⟨-, c, child, below⟩ | ⟨rfl, -, deviates⟩
      · exact ih c child below
      · exact deviates

theorem routeAmong?_eq (id parent : Nat) (ns : List Node) :
    routeAmong? id parent ns =
      ns.findSome? fun c => (c.routeTo? id).map (⟨parent, c.id⟩ :: ·) := by
  induction ns with
  | nil => rfl
  | cons n rest ih =>
      rw [routeAmong?, List.findSome?_cons, ih]
      cases n.routeTo? id <;> rfl

theorem routeTo?_eq (id : Nat) (n : Node) :
    n.routeTo? id = if n.id = id then some [] else
      n.children.findSome? fun c => (c.routeTo? id).map (⟨n.id, c.id⟩ :: ·) := by
  cases n with
  | text | set | backref => rfl
  | seq tag children | alt tag children =>
      rw [routeTo?, routeAmong?_eq]
      rfl
  | rep tag _ body | group tag body | capture tag _ _ body =>
      simp only [children, List.findSome?_singleton]
      rfl

end PatternSampler.Node
