import Mathlib.Data.List.Flatten
import PatternSampler.Proofs.CharClass.Selection
import PatternSampler.Proofs.Pattern.Markers
import PatternSampler.Proofs.Phrase.OwnMarks

/-!
# Marked and eligible nodes

The eligible nodes are the marked ones that can deviate and are not barred, in the order of
their identities.  A mark spreads to all nodes below, unless it stands at a quantifier.
-/

namespace PatternSampler

namespace Node

variable {e n : Node}

/-- There is a text that the node does not stand for. -/
def Deviates : Node → Prop
  | text _ chars => chars ≠ []
  | set _ members => ∃ ch : Char, members.alphabet.Holds ch.toNat ∧ members.contains ch = false
  | rep _ quantifier _ => ¬(quantifier.min = 0 ∧ quantifier.max = none)
  | _ => False

theorem canDeviate_iff (hn : n.WellFormed) : n.canDeviate = true ↔ n.Deviates := by
  cases n with
  | text tag chars => simp [canDeviate, Deviates]
  | set tag members =>
      have full := CharClass.isFull_iff hn
      rw [canDeviate, Bool.not_eq_true', ← Bool.not_eq_true, full]
      simp [Deviates]
  | rep tag quantifier body =>
      cases bounded : quantifier.max <;>
        simp [canDeviate, Deviates, Quantifier.violable, bounded, Nat.pos_iff_ne_zero]
  | seq | alt | group | capture | backref => simp [canDeviate, Deviates]

theorem eligible_sublist (n : Node) : n.eligible.Sublist n.nodes := by
  induction n using inductOwned with
  | node n ih =>
      have inner : (n.children.flatMap eligible).Sublist (n.children.flatMap nodes) :=
        List.Sublist.flatMap_right _ ih
      have own : n.ownEligible.Sublist [n] := by
        unfold ownEligible
        split <;> simp
      rw [eligible_eq, nodes_eq]
      refine List.Sublist.append ?_ own
      split
      · exact List.nil_sublist _
      · exact inner

/-- Only a repetition of at most no times above a node keeps it from being eligible. -/
theorem Distinct.mem_eligible_iff (h : n.Distinct) :
    e ∈ n.eligible ↔ e ∈ n.nodes ∧ (e.marked = true ∧ e.canDeviate = true) ∧
      ∀ a ∈ n.nodes, ∀ c ∈ a.children, e ∈ c.nodes → a.barred = false := by
  constructor
  · intro he
    have owned := mem_nodes_of_eligible he
    refine ⟨owned, ?_, fun a ha c child below => ?_⟩
    · have here := h.eligible he owned e.self_mem_nodes
      rcases mem_eligible.1 here with ⟨-, c, child, he⟩ | ⟨-, own⟩
      · exact absurd rfl ((h.of_mem owned).id_ne child (mem_nodes_of_eligible he))
      · exact own
    · have under := h.eligible he ha (mem_nodes_of_child child below)
      rcases mem_eligible.1 under with ⟨free, -⟩ | ⟨rfl, -⟩
      · exact free
      · exact absurd rfl ((h.of_mem ha).id_ne child below)
  · rintro ⟨owned, own, free⟩
    induction n using inductOwned with
    | node n ih =>
        rw [mem_eligible]
        rcases mem_nodes.1 owned with rfl | ⟨c, child, below⟩
        · exact .inr ⟨rfl, own⟩
        · refine .inl ⟨free n n.self_mem_nodes c child below, c, child, ?_⟩
          exact ih c child (h.child child) below fun a ha => free a (mem_nodes_of_child child ha)

end Node

namespace Pattern

/-- What a pattern makes of the markers of its text. -/
structure Marks (p : Pattern) (source : String) : Prop where
  ordered : (p.eligible.map Node.id).Pairwise (· < ·)
  eligible : ∀ e, e ∈ p.eligible ↔ e ∈ p.root.nodes ∧ e.marked = true ∧ e.Deviates ∧
    ∀ tag quantifier body, .rep tag quantifier body ∈ p.root.nodes → e ∈ body.nodes →
      quantifier.max ≠ some 0
  hasMarker : p.hasMarker = true ↔ ∃ n ∈ p.root.nodes, n.marked = true
  spread : ∀ n ∈ p.root.nodes, n.marked = true → n.quantifier? = none →
    ∀ m ∈ n.nodes, m.marked = true
  /-- A repetition that is marked alone has its own quantifier behind a marker. -/
  alone : ∀ tag quantifier body, .rep tag quantifier body ∈ p.root.nodes → tag.marked = true →
    (∃ m ∈ body.nodes, m.marked = false) →
      Reader.OwnsMark (kinds source.toList) quantifier tag.id

theorem WellFormed.ordered {p : Pattern} (hp : p.WellFormed) :
    (p.eligible.map Node.id).Pairwise (· < ·) := by
  have sublist : (p.eligible.map Node.id).Sublist (List.range p.root.nodes.length) :=
    hp.ids ▸ p.root.eligible_sublist.map Node.id
  exact List.pairwise_lt_range.sublist sublist

theorem WellFormed.mem_eligible_iff {p : Pattern} (hp : p.WellFormed) (e : Node) :
    e ∈ p.eligible ↔ e ∈ p.root.nodes ∧ e.marked = true ∧ e.Deviates ∧
      ∀ tag quantifier body, .rep tag quantifier body ∈ p.root.nodes → e ∈ body.nodes →
        quantifier.max ≠ some 0 := by
  rw [eligible, hp.distinct.mem_eligible_iff, and_assoc]
  refine and_congr_right fun owned => and_congr_right fun _ => ?_
  rw [Node.canDeviate_iff (hp.sound e owned)]
  refine and_congr_right fun _ => ?_
  constructor
  · intro free tag quantifier body ha below
    simpa [Node.barred] using free _ ha body (List.mem_singleton_self body) below
  · intro free a ha c child below
    cases a with
    | rep tag quantifier body =>
        cases List.mem_singleton.1 child
        simpa [Node.barred] using free tag quantifier _ ha below
    | _ => rfl

theorem hasMarker_ofPhrase (p : Phrase) :
    (ofPhrase p).hasMarker = true ↔ ∃ n ∈ (ofPhrase p).root.nodes, n.marked = true := by
  have stamps : (ofPhrase p).root.nodes.map Node.stamp = p.tally .stamps false :=
    p.stamps_number false .start
  have marked : (p.tally .stamps false).any (·.marked) = p.hasMarker := p.any_marked_stamps false
  rw [← stamps, List.any_map] at marked
  change p.hasMarker = true ↔ _
  rw [← marked]
  exact List.any_eq_true

/-- The nodes under a marked node are marked, or its own quantifier stands behind a marker. -/
theorem shares_of_parse {source : String} {p : Pattern} (parsed : parse source = .ok p) {n : Node}
    (hn : n ∈ p.root.nodes) (marked : n.marked = true) :
    (∀ m ∈ n.nodes, m.marked = true) ∨ ∃ quantifier, n.quantifier? = some quantifier ∧
      Reader.OwnsMark (kinds source.toList) quantifier n.id := by
  have wellFormed := wellFormed_parse parsed
  obtain ⟨f, taken, -, groups, rfl⟩ := parse_eq_ok.1 parsed
  have place : (f.level.toPhrase.number false .start).1.nodes[n.id]? = some n :=
    wellFormed.getElem?_iff.2 ⟨hn, rfl⟩
  obtain ⟨own, noted, shares⟩ := Phrase.exists_shares place
  rcases shares marked with below | ⟨quantifier, rfl, repeats⟩
  · exact .inl below
  · exact .inr ⟨quantifier, repeats, Reader.ownsMark_of_finished taken groups noted⟩

/-- A parsed pattern has the marks that its text asks for. -/
theorem marks_of_parse {source : String} {p : Pattern} (parsed : parse source = .ok p) :
    p.Marks source := by
  have wellFormed := wellFormed_parse parsed
  refine
    { ordered := wellFormed.ordered
      eligible := wellFormed.mem_eligible_iff
      hasMarker := ?hasMarker
      spread := ?spread
      alone := ?alone }
  case hasMarker =>
    obtain ⟨phrase, -, rfl⟩ := parse_eq_ok_iff.1 parsed
    exact hasMarker_ofPhrase phrase
  case spread =>
    intro n hn marked single
    rcases shares_of_parse parsed hn marked with below | ⟨quantifier, repeats, -⟩
    · exact below
    · rw [single] at repeats
      cases repeats
  case alone =>
    rintro tag quantifier body hn marked ⟨m, below, plain⟩
    rcases shares_of_parse parsed hn marked with all | ⟨quantifier', repeats, owns⟩
    · have := all m (Node.mem_nodes_of_child (List.mem_singleton_self body) below)
      rw [plain] at this
      cases this
    · cases repeats
      exact owns

/-- One repetition is marked at its quantifier only, another one bars what is marked in it. -/
theorem marks_of_parse_repetitions :
    ∃ p, parse "(?:a\\ib)\\i*(?:\\ic)\x7b0\x7d" = .ok p ∧ p.markedIds = [1, 4, 5] ∧
      p.eligible.map Node.id = [1] ∧ p.Marks "(?:a\\ib)\\i*(?:\\ic)\x7b0\x7d" := by
  have parsed : parse "(?:a\\ib)\\i*(?:\\ic)\x7b0\x7d" = .ok _ := rfl
  exact ⟨_, parsed, rfl, rfl, marks_of_parse parsed⟩

end Pattern

end PatternSampler
