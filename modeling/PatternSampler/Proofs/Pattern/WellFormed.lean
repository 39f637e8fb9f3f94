import PatternSampler.Pattern.Basic
import PatternSampler.Proofs.Pattern.Routes
import PatternSampler.Proofs.Phrase.Honoring

/-!
# Well-formed patterns

What the walks over a parsed tree may rely on: the identity of a node is its place among
all nodes, every back reference means a capturing group of the same tree, and the
capturing groups have the numbers from one on.
-/

namespace PatternSampler.Pattern

structure WellFormed (p : Pattern) : Prop where
  ids : p.root.nodes.map Node.id = List.range p.root.nodes.length
  sound : ∀ n ∈ p.root.nodes, n.WellFormed
  closed : ∀ n ∈ p.root.nodes, ∀ g ∈ n.referred?, ∃ c ∈ p.root.nodes, c.group? = some g
  slots : p.root.indexes.Perm (List.range' 1 p.captureCount)

namespace WellFormed

variable {p : Pattern}

theorem distinct (hp : p.WellFormed) : p.root.Distinct := by
  have apart : (p.root.nodes.map Node.id).Nodup := hp.ids ▸ List.nodup_range
  exact List.pairwise_map.1 apart

theorem getElem?_iff (hp : p.WellFormed) {n : Node} {id : Nat} :
    p.root.nodes[id]? = some n ↔ n ∈ p.root.nodes ∧ n.id = id := by
  have place {i : Nat} {m : Node} (h : p.root.nodes[i]? = some m) : m.id = i := by
    have listed := congrArg (·[i]?) hp.ids
    simp only [List.getElem?_map, h, Option.map_some] at listed
    have inside : i < p.root.nodes.length := (List.getElem?_eq_some_iff.1 h).1
    rw [List.getElem?_range inside] at listed
    exact Option.some.inj listed
  constructor
  · intro h
    exact ⟨List.mem_of_getElem? h, place h⟩
  · rintro ⟨owned, rfl⟩
    obtain ⟨i, h⟩ := List.mem_iff_getElem?.1 owned
    rwa [place h]

theorem index_lt (hp : p.WellFormed) {n : Node} (owned : n ∈ p.root.nodes) {g : NumberedGroup}
    (h : n.group? = some g) : g.index < p.captureCount + 1 := by
  have listed : g.index ∈ p.root.indexes :=
    List.mem_map.2 ⟨g, List.mem_filterMap.2 ⟨n, owned, h⟩, rfl⟩
  have := List.mem_range'_1.1 (hp.slots.mem_iff.1 listed)
  omega

end WellFormed

def ofPhrase (p : Phrase) : Pattern := ofRead (p, p.hasMarker)

theorem parse_eq (text : String) : parse text = (Phrase.read text.toList).map ofPhrase := by
  rw [parse, Reader.read_true]
  cases Phrase.read text.toList <;> rfl

/-- The second run over a text comes to the phrase of the first one without its markers. -/
theorem parseUnmarked_eq (text : String) :
    parseUnmarked text = (Phrase.read text.toList).map fun p => ofPhrase p.unmarked := by
  rw [parseUnmarked, Reader.read_false]
  cases Phrase.read text.toList with
  | error e => rfl
  | ok p =>
      have plain := p.hasMarker_unmarked.symm
      exact congrArg (fun has => Except.ok (ofRead (p.unmarked, has))) plain

theorem orderly_ofPhrase {p : Phrase} (hp : p.WellFormed) :
    ∀ n ∈ (ofPhrase p).root.nodes, n.Orderly :=
  p.number_orderly hp false .start Numbering.bounded_start

theorem wellFormed_ofPhrase {p : Phrase} (hp : p.WellFormed) {count : Nat}
    (indexes : p.indexes = List.range' 1 count) : (ofPhrase p).WellFormed := by
  have adds := p.number_adds false .start
  have groups := p.number_indexes false .start
  rw [indexes] at groups
  have captureCount : (ofPhrase p).captureCount = count := by
    have length := groups.length_eq
    simp only [Node.indexes, List.length_map, List.length_range'] at length
    change (p.number false .start).2.groups.length = count
    rw [adds.groups]
    simpa [Numbering.start] using length
  refine ⟨?_, fun n hn => (orderly_ofPhrase hp n hn).wellFormed, ?_, ?_⟩
  · rw [List.range_eq_range']
    exact adds.ids
  · intro n hn g hg
    have := adds.references n hn g hg
    rw [adds.groups] at this
    simpa [Numbering.start, ofPhrase, ofRead] using this
  · rw [captureCount]
    exact groups

theorem parse_eq_ok_iff {text : String} {p : Pattern} :
    parse text = .ok p ↔ ∃ phrase, Phrase.read text.toList = .ok phrase ∧ ofPhrase phrase = p := by
  rw [parse_eq]
  cases Phrase.read text.toList <;> simp [Except.map]

theorem parseUnmarked_eq_ok {text : String} {p : Pattern} :
    parseUnmarked text = .ok p ↔
      ∃ phrase, Phrase.read text.toList = .ok phrase ∧ ofPhrase phrase.unmarked = p := by
  rw [parseUnmarked_eq]
  cases Phrase.read text.toList <;> simp [Except.map]

theorem wellFormed_parse {text : String} {p : Pattern} (h : parse text = .ok p) :
    p.WellFormed := by
  obtain ⟨phrase, read, rfl⟩ := parse_eq_ok_iff.1 h
  obtain ⟨wellFormed, count, indexes⟩ := Phrase.of_read read
  exact wellFormed_ofPhrase wellFormed indexes

theorem wellFormed_parseUnmarked {text : String} {p : Pattern} (h : parseUnmarked text = .ok p) :
    p.WellFormed := by
  obtain ⟨phrase, read, rfl⟩ := parseUnmarked_eq_ok.1 h
  obtain ⟨wellFormed, count, indexes⟩ := Phrase.of_read read
  exact wellFormed_ofPhrase wellFormed.unmarked (phrase.indexes_unmarked ▸ indexes)

theorem root_ofPhrase_unmarked (p : Phrase) :
    (ofPhrase p.unmarked).root = (ofPhrase p).root.bare ∧
      (ofPhrase p.unmarked).captureCount = (ofPhrase p).captureCount := by
  have numbered := p.number_unmarked false .start
  rw [Numbering.bare_start] at numbered
  simp [ofPhrase, ofRead, numbered, Numbering.bare]

theorem parseUnmarked_of_parse {text : String} {p : Pattern} (h : parse text = .ok p) :
    ∃ plain, parseUnmarked text = .ok plain ∧ plain.root = p.root.bare ∧
      plain.captureCount = p.captureCount := by
  obtain ⟨phrase, read, rfl⟩ := parse_eq_ok_iff.1 h
  exact ⟨ofPhrase phrase.unmarked, parseUnmarked_eq_ok.2 ⟨phrase, read, rfl⟩,
    root_ofPhrase_unmarked phrase⟩

end PatternSampler.Pattern
