import Mathlib.Data.List.Basic
import PatternSampler.Proofs.Pattern.WellFormed

/-!
# Trees as lists of entries

An entry of a pattern tells what one of its nodes is, with the nodes around it by their
identities.  Entries do not show marks.  A text reads with its markers and without them to
the same entries, or to the same error.
-/

namespace PatternSampler

/-- What a node is, apart from its own identity and its mark. -/
inductive Shape
  | text (chars : List Char)
  | set (members : CharClass)
  | rep (quantifier : Quantifier) (body : Nat)
  | seq (children : List Nat)
  | alt (children : List Nat)
  | group (body : Nat)
  | capture (index : Nat) (name : Option String) (body : Nat)
  | backref (target index : Nat)
deriving DecidableEq

structure Entry where
  id : Nat
  parent : Option Nat
  shape : Shape
deriving DecidableEq

def Node.shape : Node → Shape
  | .text _ chars => .text chars
  | .set _ members => .set members
  | .rep _ quantifier body => .rep quantifier body.id
  | .seq _ children => .seq (children.map Node.id)
  | .alt _ children => .alt (children.map Node.id)
  | .group _ body => .group body.id
  | .capture _ index name body => .capture index name body.id
  | .backref _ target index _ => .backref target index

def Placed.entry (p : Placed) : Entry := ⟨p.node.id, p.parent, p.node.shape⟩

def Placed.bare (p : Placed) : Placed := { p with node := p.node.bare }

namespace Pattern

def entries (p : Pattern) : List Entry := (p.root.placed none).map Placed.entry

def markedIds (p : Pattern) : List Nat := (p.root.nodes.filter Node.marked).map Node.id

theorem length_entries (p : Pattern) : p.entries.length = p.size := by
  simp [entries, size, Node.nodes]

end Pattern

namespace Node

theorem placedEach_eq (parent : Option Nat) (ns : List Node) :
    placedEach parent ns = ns.flatMap (placed parent) := by
  induction ns with
  | nil => rfl
  | cons n rest ih => simp [placedEach, ih]

theorem placed_eq (parent : Option Nat) (n : Node) :
    n.placed parent = n.children.flatMap (placed (some n.id)) ++ [⟨parent, n⟩] := by
  cases n <;> simp [placed, children, placedEach_eq, id, tag]

theorem tag_bare (n : Node) : n.bare.tag = n.tag.bare := by
  cases n <;> rfl

@[simp] theorem id_bare (n : Node) : n.bare.id = n.id := by
  rw [id, tag_bare]
  rfl

@[simp] theorem marked_bare (n : Node) : n.bare.marked = false := by
  rw [marked, tag_bare]
  rfl

theorem shape_bare (n : Node) : n.bare.shape = n.shape := by
  cases n <;> simp [bare, shape, bareEach_eq]

theorem entry_bare (p : Placed) : p.bare.entry = p.entry := by
  simp [Placed.entry, Placed.bare, shape_bare]

theorem placed_bare (parent : Option Nat) (n : Node) :
    n.bare.placed parent = (n.placed parent).map Placed.bare := by
  induction n using inductOwned generalizing parent with
  | node n ih =>
      rw [placed_eq, placed_eq, children_bare, id_bare, List.map_append, List.map_flatMap,
        List.flatMap_map]
      congr 1
      exact List.flatMap_congr fun c hc => ih c hc _

theorem entries_bare (parent : Option Nat) (n : Node) :
    (n.bare.placed parent).map Placed.entry = (n.placed parent).map Placed.entry := by
  simp [placed_bare, entry_bare]

theorem nodes_bare (n : Node) : n.bare.nodes = n.nodes.map bare := by
  simp only [nodes, placed_bare, List.map_map]
  rfl

theorem eligible_bare (n : Node) : n.bare.eligible = [] := by
  rw [List.eq_nil_iff_forall_not_mem]
  intro e he
  induction n using inductOwned with
  | node n ih =>
      rcases mem_eligible.1 he with ⟨-, c, child, below⟩ | ⟨-, marked, -⟩
      · rw [children_bare] at child
        obtain ⟨d, owned, rfl⟩ := List.mem_map.1 child
        exact ih d owned below
      · simp at marked

end Node

namespace Pattern

/-- With its markers and without them a text reads to the same error or to trees with the
same entries.  Without them no node is marked. -/
theorem parse_parseUnmarked (text : String) :
    (∃ e, parse text = .error e ∧ parseUnmarked text = .error e) ∨
      ∃ p plain, parse text = .ok p ∧ parseUnmarked text = .ok plain ∧
        plain.size = p.size ∧ plain.entries = p.entries ∧
        p.entries.map Entry.id = List.range p.size ∧
        plain.root.id = p.root.id ∧ plain.captureCount = p.captureCount ∧
        (∀ n ∈ plain.root.nodes, n.marked = false) ∧ plain.eligible = [] ∧
        plain.hasMarker = false := by
  cases read : Phrase.read text.toList with
  | error e => exact .inl ⟨e, by rw [parse_eq, read]; rfl, by rw [parseUnmarked_eq, read]; rfl⟩
  | ok phrase =>
      have parsed := parse_eq_ok_iff.2 ⟨phrase, read, rfl⟩
      have unmarked := parseUnmarked_eq_ok.2 ⟨phrase, read, rfl⟩
      obtain ⟨root, captureCount⟩ := root_ofPhrase_unmarked phrase
      have entries : (ofPhrase phrase.unmarked).entries = (ofPhrase phrase).entries := by
        rw [Pattern.entries, Pattern.entries, root, Node.entries_bare]
      have size : (ofPhrase phrase.unmarked).size = (ofPhrase phrase).size := by
        rw [← length_entries, entries, length_entries]
      have ids : (ofPhrase phrase).entries.map Entry.id = List.range (ofPhrase phrase).size := by
        rw [Pattern.size, ← (wellFormed_parse parsed).ids, Node.nodes, Pattern.entries]
        simp only [List.map_map]
        rfl
      refine .inr ⟨_, _, parsed, unmarked, size, entries, ids, ?_, captureCount, ?_, ?_, ?_⟩
      · rw [root, Node.id_bare]
      · rw [root, Node.nodes_bare]
        simp
      · rw [eligible, root, Node.eligible_bare]
      · exact phrase.hasMarker_unmarked

end Pattern

end PatternSampler
