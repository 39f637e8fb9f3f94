import PatternSampler.Proofs.Generation.Steering

/-!
# When generation fails

A generator can always draw what it needs to break the chosen node: only eligible nodes are
chosen, and those have something to draw that they do not allow.  So generation fails at a
class that has nothing to select from and that is meant to conform, and nowhere else.
-/

namespace PatternSampler

/-- There is something to draw that the node does not allow. -/
def Node.Breakable : Node → Prop
  | .text _ chars => chars ≠ [] ∧ ∀ c ∈ chars, (CharClass.allExcept c).Yields (· ≠ c)
  | .set _ members => members.complement.Yields fun c => members.contains c = false
  | .rep _ quantifier _ => ∃ count ≤ largestCount, ¬quantifier.Allows count
  | _ => False

theorem Quantifier.WellFormed.exists_not_allowed {q : Quantifier} (hq : q.WellFormed)
    (violable : q.violable = true) : ∃ count ≤ largestCount, ¬q.Allows count := by
  cases bounded : q.max with
  | none =>
      have some : 0 < q.min := by simpa [Quantifier.violable, bounded] using violable
      exact ⟨0, Nat.zero_le _, fun allowed => by have := allowed.1; omega⟩
  | some max =>
      have capped : max + 1 ≤ largestCount :=
        Nat.le_trans (Nat.succ_le_succ (hq.max_le max bounded)) (by decide)
      exact ⟨max + 1, capped, fun allowed => by have := allowed.2 max bounded; omega⟩

theorem Pattern.WellFormed.breakable {p : Pattern} (hp : p.WellFormed) {e : Node}
    (eligible : e ∈ p.eligible) : e.Breakable := by
  have sound := hp.sound e (Node.mem_nodes_of_eligible eligible)
  have deviates := Node.canDeviate_of_eligible eligible
  cases e with
  | text tag chars =>
      exact ⟨by simpa [Node.canDeviate] using deviates, fun c _ => CharClass.yields_allExcept c⟩
  | set tag members =>
      exact CharClass.yields_complement sound (by simpa [Node.canDeviate] using deviates)
  | rep tag quantifier body => exact Quantifier.WellFormed.exists_not_allowed sound deviates
  | seq | alt | group | capture | backref => cases deviates

namespace Pattern

/-- The generator is told to break nothing, or an eligible node of the pattern. -/
def Runs (p : Pattern) (g : Generator) : Prop :=
  ∃ slack, g = .conforming slack ∨ ∃ e ∈ p.eligible, g = .invalidating slack p.root e.id

theorem WellFormed.steers {p : Pattern} (hp : p.WellFormed) {g : Generator} (runs : p.Runs g) :
    g.Steers p.root := by
  obtain ⟨slack, rfl | ⟨e, eligible, rfl⟩⟩ := runs
  · exact Generator.steers_conforming slack p.root
  · exact (Generator.Steers.of_eligible slack hp.distinct eligible).1

/-- Generation ends with a string unless a class that is meant to conform has nothing to
select from, and every eligible node has something to draw that it does not allow. -/
theorem generate_ok_or_starved {source : String} {p : Pattern} (parsed : parse source = .ok p) :
    (∀ g, p.Runs g → ∀ random : Source,
      ((∃ w, ((g.generate p.root).run.run random).1 = .ok w) ∨
        ∃ e, ((g.generate p.root).run.run random).1 = .error e ∧ g.Starved p.root e) ∧
      ((∀ tag members, .set tag members ∈ p.root.nodes → 0 < members.selectable) →
        ∃ w, ((g.generate p.root).run.run random).1 = .ok w)) ∧
    (∀ e ∈ p.eligible, e.Breakable) ∧ ∀ c, (CharClass.allExcept c).Yields (· ≠ c) := by
  have hp := wellFormed_parse parsed
  refine ⟨fun g runs random => ?_, fun e eligible => hp.breakable eligible,
    CharClass.yields_allExcept⟩
  have spells := (hp.steers runs).spellsUnless hp p.root.self_mem_nodes
  cases ends : ((g.generate p.root).run.run random).1 with
  | ok w => exact ⟨.inl ⟨w, rfl⟩, fun _ => ⟨w, rfl⟩⟩
  | error e =>
      have starved := spells.of_error ends
      refine ⟨.inr ⟨e, rfl, starved⟩, fun filled => ?_⟩
      obtain ⟨tag, members, owned, -, empty, -⟩ := starved
      exact absurd empty (Nat.ne_of_gt (filled tag members owned))

theorem generate_ok_or_starved_astral :
    ∃ p, parse "\\i😀[ab]" = .ok p ∧ ∃ e ∈ p.eligible, e.Breakable ∧ ∀ random : Source, ∃ w,
      (((Generator.invalidating 10 p.root e.id).generate p.root).run.run random).1 = .ok w := by
  have filled {p : Pattern} (parsed : parse "\\i😀[ab]" = .ok p) (tag : Tag) (members : CharClass)
      (owned : .set tag members ∈ p.root.nodes) : 0 < members.selectable := by
    cases parsed
    rcases List.mem_cons.1 owned with same | owned
    · cases same
    rcases List.mem_cons.1 owned with same | owned
    · cases same
      decide
    · cases List.mem_singleton.1 owned
  obtain ⟨outcome, breakable, -⟩ := generate_ok_or_starved (rfl : parse "\\i😀[ab]" = .ok _)
  refine ⟨_, rfl, _, List.mem_singleton_self _, breakable _ (List.mem_singleton_self _), ?_⟩
  intro random
  exact (outcome _ ⟨10, .inr ⟨_, List.mem_singleton_self _, rfl⟩⟩ random).2 (filled rfl)

end Pattern

end PatternSampler
