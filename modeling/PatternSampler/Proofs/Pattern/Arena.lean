import Mathlib.Data.List.Nodup
import Mathlib.Data.List.Pairwise
import Mathlib.Data.List.Perm.Basic
import PatternSampler.Proofs.Pattern.Entries
import PatternSampler.Proofs.Phrase.Openings

/-!
# The nodes of a pattern as a table

The identities of the nodes are their places in post-order.  So every subtree is a run of
consecutive nodes that ends with its root, children and the groups that are referred to come
before the nodes that lead to them, and each node but the root has one owner.
-/

namespace PatternSampler

namespace Node

def owned (n : Node) : List Nat := n.children.map id

theorem mem_placed {parent : Option Nat} {n : Node} {q : Placed} :
    q ∈ n.placed parent ↔
      q = ⟨parent, n⟩ ∨ ∃ m ∈ n.nodes, ∃ c ∈ m.children, q = ⟨some m.id, c⟩ := by
  induction n using inductOwned generalizing parent with
  | node n ih =>
      rw [placed_eq, List.mem_append, List.mem_flatMap, List.mem_singleton, or_comm]
      refine or_congr_right ⟨?_, ?_⟩
      · rintro ⟨c, child, listed⟩
        rcases (ih c child).1 listed with rfl | ⟨m, hm, d, hd, rfl⟩
        · exact ⟨n, n.self_mem_nodes, c, child, rfl⟩
        · exact ⟨m, mem_nodes_of_child child hm, d, hd, rfl⟩
      · rintro ⟨m, hm, d, hd, rfl⟩
        rcases mem_nodes.1 hm with rfl | ⟨c, child, below⟩
        · exact ⟨d, hd, (ih d hd).2 (.inl rfl)⟩
        · exact ⟨c, child, (ih c child).2 (.inr ⟨m, below, d, hd, rfl⟩)⟩

theorem perm_owned (n : Node) :
    (n.nodes.flatMap owned ++ [n.id]).Perm (n.nodes.map id) := by
  induction n using inductOwned with
  | node n ih =>
      have inner : (n.children.flatMap fun c => c.nodes.flatMap owned ++ [c.id]).Perm
          (n.children.flatMap fun c => c.nodes.map id) :=
        List.Perm.flatMap_left _ ih
      have split := List.flatMap_append_perm n.children (fun c => c.nodes.flatMap owned)
        (fun c => [c.id])
      have single : n.children.flatMap (fun c => [c.id]) = n.owned := List.map_eq_flatMap.symm
      rw [single] at split
      rw [nodes_eq, List.flatMap_append, List.flatMap_singleton, List.flatMap_assoc,
        List.map_append, List.map_flatMap, List.map_singleton]
      exact (split.trans inner).append_right _

theorem nodup_owned {n : Node} (h : n.Distinct) : (n.nodes.flatMap owned ++ [n.id]).Nodup :=
  n.perm_owned.nodup_iff.2 (List.pairwise_map.2 h)

/-- One node owns another, and only once. -/
theorem Distinct.owner {c n root : Node} (h : root.Distinct) (hn : n ∈ root.nodes)
    (child : c ∈ n.children) : c.id ≠ root.id ∧ n.owned.count c.id = 1 ∧
      ∀ m ∈ root.nodes, m.id ≠ n.id → c.id ∉ m.owned := by
  obtain ⟨nodup, -, apart⟩ := List.nodup_append.1 (nodup_owned h)
  obtain ⟨each, disjoint⟩ := List.nodup_flatMap.1 nodup
  have listed : c.id ∈ n.owned := List.mem_map_of_mem child
  refine ⟨?_, List.count_eq_one_of_mem (each n hn) listed, ?_⟩
  · exact apart c.id (List.mem_flatMap.2 ⟨n, hn, listed⟩) root.id (List.mem_singleton_self _)
  · intro m hm ne
    have symmetric : Std.Symm (Function.onFun List.Disjoint owned) :=
      ⟨fun _ _ apart _ hm hn => apart hn hm⟩
    exact fun again => disjoint.forall hm hn (fun eq => ne (congrArg id eq)) again listed

theorem nodes_infix {m n : Node} (below : m ∈ n.nodes) : m.nodes <:+: n.nodes := by
  induction n using inductOwned with
  | node n ih =>
      rcases mem_nodes.1 below with rfl | ⟨c, child, below⟩
      · exact List.infix_rfl
      · obtain ⟨before, after, split⟩ := List.append_of_mem child
        have inside : c.nodes <:+: n.nodes := by
          rw [nodes_eq n, split]
          exact ⟨before.flatMap nodes, after.flatMap nodes ++ [n], by simp⟩
        exact (ih c child below).trans inside

end Node

theorem eq_range'_of_split {before l after : List Nat} {count : Nat}
    (split : List.range count = before ++ l ++ after) : l = List.range' before.length l.length := by
  rw [List.range_eq_range', List.range'_eq_append_iff] at split
  obtain ⟨_, -, front, -⟩ := split
  rw [eq_comm, List.range'_eq_append_iff] at front
  obtain ⟨_, -, left, rest⟩ := front
  rw [left, rest, List.length_range', List.length_range', Nat.zero_add, Nat.mul_one]

namespace Pattern

namespace WellFormed

variable {p : Pattern} {c m n : Node}

theorem id_of_split (hp : p.WellFormed) {before after : List Node}
    (split : p.root.nodes = before ++ n.nodes ++ after) :
    before.length + n.nodes.length = n.id + 1 := by
  have place : p.root.nodes[(before ++ n.children.flatMap Node.nodes).length]? = some n := by
    rw [split, n.nodes_eq]
    simp
  have id := (hp.getElem?_iff.1 place).2
  rw [id, n.nodes_eq, List.length_append, List.length_append, List.length_singleton]
  exact (Nat.add_assoc _ _ _).symm

/-- The identities of a subtree are consecutive and end with that of its root. -/
theorem block (hp : p.WellFormed) (hn : n ∈ p.root.nodes) :
    ∃ first, first + n.nodes.length = n.id + 1 ∧
      n.nodes.map Node.id = List.range' first n.nodes.length := by
  obtain ⟨before, after, split⟩ := Node.nodes_infix hn
  have ids := hp.ids.symm
  rw [← split, List.map_append, List.map_append] at ids
  refine ⟨before.length, hp.id_of_split split.symm, ?_⟩
  rw [eq_range'_of_split ids, List.length_map, List.length_map]

theorem last_root (hp : p.WellFormed) : p.root.id + 1 = p.size := by
  have whole : p.root.nodes = [] ++ p.root.nodes ++ [] := by simp
  rw [← hp.id_of_split whole]
  exact Nat.zero_add _

theorem id_le_of_below (hp : p.WellFormed) (hn : n ∈ p.root.nodes) (below : m ∈ n.nodes) :
    m.id ≤ n.id := by
  obtain ⟨first, last, ids⟩ := hp.block hn
  have inside : m.id ∈ List.range' first n.nodes.length := ids ▸ List.mem_map_of_mem below
  have := (List.mem_range'_1.1 inside).2
  omega

theorem id_lt_of_child (hp : p.WellFormed) (hn : n ∈ p.root.nodes) (child : c ∈ n.children) :
    c.id < n.id := by
  have below := Node.mem_nodes_of_child child c.self_mem_nodes
  have ne := (hp.distinct.of_mem hn).id_ne child c.self_mem_nodes
  have := hp.id_le_of_below hn below
  omega

end WellFormed

/-- From the node `j` a walk goes on to `i`, which is a child of it or the group that it
refers to. -/
def Reaches (p : Pattern) (i j : Nat) : Prop :=
  ∃ n ∈ p.root.nodes, n.id = j ∧ (i ∈ n.owned ∨ ∃ g ∈ n.referred?, g.id = i)

/-- What every walk over the nodes of a pattern may rely on, by their identities, their
parents and the groups that the text opens. -/
structure Arena (p : Pattern) (source : String) : Prop where
  /-- Children are placed before their parents, so the identities are those of post-order. -/
  ids : (p.root.placed none).map (·.node.id) = List.range p.size
  root : p.root.id + 1 = p.size
  orphan : ∀ q ∈ p.root.placed none, q.parent = none ↔ q.node.id = p.root.id
  owner : ∀ q ∈ p.root.placed none, q.node.id ≠ p.root.id →
    ∃ n ∈ p.root.nodes, q.parent = some n.id ∧ n.owned.count q.node.id = 1 ∧
      ∀ m ∈ p.root.nodes, m.id ≠ n.id → q.node.id ∉ m.owned
  blocks : ∀ n ∈ p.root.nodes, ∃ first, first + n.nodes.length = n.id + 1 ∧
    n.nodes.map Node.id = List.range' first n.nodes.length
  references : ∀ tag target index body, .backref tag target index body ∈ p.root.nodes →
    target < tag.id ∧ ∃ own name, own.id = target ∧
      .capture own index name body ∈ p.root.nodes ∧
      .backref tag target index body ∉ (Node.capture own index name body).nodes
  numbers : p.root.indexes.Perm (List.range' 1 p.captureCount)
  opened : ((kinds source.toList).filterMap Token.opened?).length = p.captureCount
  /-- The group with a number is the one that the parenthesis of that number opens, where the
  nodes before those of the group have been completed. -/
  parentheses : ∀ tag index name body, .capture tag index name body ∈ p.root.nodes →
    ∃ first, first + (Node.capture tag index name body).nodes.length = tag.id + 1 ∧
      Reader.Opens (kinds source.toList) index name first
  several : ∀ tag children, .seq tag children ∈ p.root.nodes ∨ .alt tag children ∈ p.root.nodes →
    2 ≤ children.length
  bounds : ∀ tag quantifier body, .rep tag quantifier body ∈ p.root.nodes →
    quantifier.min ≤ 1000 ∧
      ∀ max, quantifier.max = some max → quantifier.min ≤ max ∧ max ≤ 1000
  wellFounded : WellFounded p.Reaches

theorem WellFormed.reference {p : Pattern} (hp : p.WellFormed)
    (orderly : ∀ n ∈ p.root.nodes, n.Orderly) {tag : Tag} {target index : Nat} {body : Node}
    (owned : .backref tag target index body ∈ p.root.nodes) :
    target < tag.id ∧ ∃ own name, own.id = target ∧
      .capture own index name body ∈ p.root.nodes ∧
      .backref tag target index body ∉ (Node.capture own index name body).nodes := by
  have earlier : target < tag.id := by
    cases orderly _ owned with
    | backref _ _ earlier => exact earlier
  obtain ⟨c, hc, grouped⟩ := hp.closed _ owned ⟨index, target, body⟩ rfl
  cases c with
  | capture own _ name _ =>
      cases grouped
      refine ⟨earlier, own, name, rfl, hc, fun below => ?_⟩
      exact absurd (hp.id_le_of_below hc below) (Nat.not_le_of_lt earlier)
  | _ => cases grouped

theorem WellFormed.parenthesis {p : Pattern} (hp : p.WellFormed) {text : List Char}
    {phrase : Phrase} (read : Phrase.read text = .ok phrase)
    (events : p.root.tally .events = phrase.tally .events false) {n : Node} (hn : n ∈ p.root.nodes)
    {index : Nat} {name : Option String} (opened : n.opened? = some (index, name)) :
    ∃ first, first + n.nodes.length = n.id + 1 ∧ Reader.Opens (kinds text) index name first := by
  obtain ⟨before, after, first, last, nodes, split, count⟩ := Node.exists_event hn opened
  refine ⟨before.length, hp.id_of_split nodes, ?_⟩
  rw [← count]
  exact Phrase.opens_of_read read (events ▸ split)

theorem WellFormed.reaches_lt {p : Pattern} (hp : p.WellFormed)
    (orderly : ∀ n ∈ p.root.nodes, n.Orderly) {i j : Nat} (reaches : p.Reaches i j) : i < j := by
  obtain ⟨n, hn, rfl, child | ⟨g, referred, rfl⟩⟩ := reaches
  · obtain ⟨c, hc, rfl⟩ := List.mem_map.1 child
    exact hp.id_lt_of_child hn hc
  · cases orderly n hn with
    | backref _ _ earlier =>
        cases referred
        exact earlier
    | _ => cases referred

theorem WellFormed.placed {p : Pattern} (hp : p.WellFormed) {q : Placed}
    (listed : q ∈ p.root.placed none) :
    q = ⟨none, p.root⟩ ∨ ∃ n ∈ p.root.nodes, q.parent = some n.id ∧ q.node.id ≠ p.root.id ∧
      n.owned.count q.node.id = 1 ∧ ∀ m ∈ p.root.nodes, m.id ≠ n.id → q.node.id ∉ m.owned := by
  rcases Node.mem_placed.1 listed with rfl | ⟨n, hn, c, child, rfl⟩
  · exact .inl rfl
  · obtain ⟨below, once, alone⟩ := hp.distinct.owner hn child
    exact .inr ⟨n, hn, rfl, below, once, alone⟩

theorem exists_read {source : String} {p : Pattern}
    (parsed : parse source = .ok p ∨ parseUnmarked source = .ok p) :
    p.WellFormed ∧ (∀ n ∈ p.root.nodes, n.Orderly) ∧ ∃ phrase,
      Phrase.read source.toList = .ok phrase ∧
        p.root.tally .events = phrase.tally .events false := by
  rcases parsed with parsed | parsed
  · obtain ⟨phrase, read, rfl⟩ := parse_eq_ok_iff.1 parsed
    exact ⟨wellFormed_parse parsed, orderly_ofPhrase (Phrase.of_read read).1, phrase, read,
      phrase.events_number _ _⟩
  · obtain ⟨phrase, read, rfl⟩ := parseUnmarked_eq_ok.1 parsed
    refine ⟨wellFormed_parseUnmarked parsed, orderly_ofPhrase (Phrase.of_read read).1.unmarked,
      phrase, read, ?_⟩
    rw [(root_ofPhrase_unmarked phrase).1, Node.events_bare]
    exact phrase.events_number _ _

/-- The nodes of a pattern that is read from a text form a well-formed table. -/
theorem arena_of_parsed {source : String} {p : Pattern}
    (parsed : parse source = .ok p ∨ parseUnmarked source = .ok p) : p.Arena source := by
  obtain ⟨wellFormed, orderly, phrase, read, events⟩ := exists_read parsed
  refine
    { ids := ?ids
      root := wellFormed.last_root
      orphan := ?orphan
      owner := ?owner
      blocks := fun n hn => wellFormed.block hn
      references := fun tag target index body owned => wellFormed.reference orderly owned
      numbers := wellFormed.slots
      opened := ?opened
      parentheses := fun _ _ _ _ hn => wellFormed.parenthesis read events hn rfl
      several := ?several
      bounds := ?bounds
      wellFounded := Subrelation.wf (wellFormed.reaches_lt orderly) Nat.lt_wfRel.wf }
  case ids =>
    rw [size, ← wellFormed.ids, Node.nodes, List.map_map]
    rfl
  case orphan =>
    intro q listed
    rcases wellFormed.placed listed with rfl | ⟨n, -, parent, below, -⟩
    · simp
    · simp [parent, below]
  case owner =>
    intro q listed below
    rcases wellFormed.placed listed with rfl | ⟨n, hn, parent, -, once, alone⟩
    · exact absurd rfl below
    · exact ⟨n, hn, parent, once, alone⟩
  case opened =>
    rw [← Phrase.countP_isSome_of_read read, ← events, Node.countP_isSome_events,
      wellFormed.slots.length_eq, List.length_range']
  case several =>
    rintro tag children (owned | owned) <;> cases orderly _ owned <;> assumption
  case bounds =>
    intro tag quantifier body owned
    cases orderly _ owned with
    | rep _ _ small =>
        exact ⟨small.min_le, fun max h => ⟨small.ordered max h, small.max_le max h⟩⟩

theorem arena_of_parsed_references :
    ∃ p, parse "((a)|(?<n>b))\\k<n>\\2+" = .ok p ∧ p.size = 10 ∧ p.captureCount = 3 ∧
      p.Arena "((a)|(?<n>b))\\k<n>\\2+" := by
  have parsed : parse "((a)|(?<n>b))\\k<n>\\2+" = .ok _ := rfl
  exact ⟨_, parsed, rfl, rfl, arena_of_parsed (.inl parsed)⟩

end Pattern

end PatternSampler
