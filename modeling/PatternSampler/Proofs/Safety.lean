import PatternSampler.Proofs.CharClass.Count
import PatternSampler.Proofs.Matching.Checked
import PatternSampler.Proofs.Synthesis
import PatternSampler.Proofs.Token.Bounds

/-!
# Nothing faults

Whatever the text, the slack, the seed and the string to verify, every number that is
looked up, drawn from, cut at or subtracted is in bounds.  What each of the steps relies on
is a fact of a part far from it: the scanners bound the quantifiers and the tokens, the
numbering bounds the identities and the slots, the classes stay inside their alphabets.
-/

namespace PatternSampler

/-- A draw from an empty range, which no other error stands for. -/
def GenerationError.IsFault : GenerationError → Prop
  | emptyRange => True
  | _ => False

namespace Quantifier

/-- The counts that the bounds of a repetition lead to are words, and the draw above the
upper bound has a number to draw from. -/
structure InBounds (q : Quantifier) : Prop where
  min : q.min ≤ largestCount
  max : ∀ max, q.max = some max → max + 1 ≤ largestCount
  above : ∀ max, q.max = some max → ∀ slack,
    max + 1 ≤ Nat.min (max + Nat.max slack 1) largestCount

theorem WellFormed.inBounds {q : Quantifier} (hq : q.WellFormed) : q.InBounds := by
  have room : maxRepeat + 1 ≤ largestCount := by decide
  have capped (max : Nat) (h : q.max = some max) : max + 1 ≤ largestCount :=
    Nat.le_trans (Nat.succ_le_succ (hq.max_le max h)) room
  refine ⟨?_, capped, fun max h slack => ?_⟩
  · exact Nat.le_trans hq.min_le (Nat.le_trans (Nat.le_succ _) room)
  · have more : max + 1 ≤ max + Nat.max slack 1 :=
      Nat.add_le_add_left (Nat.le_max_right slack 1) max
    exact Nat.le_min.2 ⟨more, capped max h⟩

end Quantifier

theorem Generator.violatingCount_of_min_eq_zero {g : Generator} {q : Quantifier}
    (zero : q.min = 0) :
    g.violatingCount q = match q.max with
      | none => throw .impossibleInvalidation
      | some max => Generation.number
          (Source.between (max + 1) (Nat.min (max + Nat.max g.slack 1) largestCount)) := by
  unfold violatingCount
  cases q.max <;> simp [zero]

namespace CharClass

theorem insertRange_eq_invalidRange_iff {c : CharClass} {lo hi : Char} :
    c.insertRange lo hi = .error .invalidRange ↔ hi.toNat < lo.toNat := by
  rw [insertRange_eq]
  unfold Span.ofBounds?
  by_cases ordered : lo.toNat ≤ hi.toNat
  · cases Alphabet.ofCodePoint? hi.toNat <;> simp [ordered]
  · simp [ordered]
    omega

/-- The class is counted after every item, and a class that then grows is counted anew
before the next one is inserted. -/
theorem counted_insertItems {negated : Bool} {start k : Nat} {cs : List Char} {c : CharClass}
    (h : (ofPolarity negated).insertItems ((scanClassBody start true 0 cs).items.take k) =
      .ok c) : c.Counted ∧ ∀ a, (c.grow a).Counted := by
  have sound : c.WellFormed :=
    (wellFormed_ofPolarity negated).insertItems (fun entry listed =>
      wellFormed_scanClassBody start true 0 cs entry (List.mem_of_mem_take listed)) h
  exact ⟨sound.counted, fun a => (sound.grow a).counted⟩

theorem counted_of_mem_items {start position : Nat} {cs : List Char} {members : CharClass}
    (listed : (position, ClassItem.set members) ∈ (scanClassBody start true 0 cs).items) :
    members.Counted :=
  CharClass.WellFormed.counted (wellFormed_scanClassBody start true 0 cs _ listed)

end CharClass

namespace Pattern

/-- The identities, slots, classes and bounds in a tree are such that the walks over it
find what they look up. -/
structure InBounds (p : Pattern) : Prop where
  nodes : ∀ n ∈ p.root.nodes, n.id < p.size
  children : ∀ n ∈ p.root.nodes, ∀ c ∈ n.children, c.id < p.size
  groups : ∀ n ∈ p.root.nodes, ∀ g ∈ n.referred?, g.id < p.size
  routes : ∀ id, ∀ route ∈ p.root.routeTo? id, ∀ turn ∈ route,
    turn.ancestor < p.size ∧ turn.child < p.size
  slots : ∀ n ∈ p.root.nodes, ∀ index ∈ n.slot?,
    index < (MatchState.start p.captureCount).captures.length
  classes : ∀ tag members, .set tag members ∈ p.root.nodes →
    members.Counted ∧ members.complement.Counted
  quantifiers : ∀ tag q body, .rep tag q body ∈ p.root.nodes → q.InBounds

namespace WellFormed

variable {p : Pattern}

theorem id_lt (hp : p.WellFormed) {n : Node} (owned : n ∈ p.root.nodes) : n.id < p.size := by
  have listed : n.id ∈ p.root.nodes.map Node.id := List.mem_map_of_mem owned
  rw [hp.ids] at listed
  exact List.mem_range.1 listed

theorem inBounds (hp : p.WellFormed) : p.InBounds where
  nodes _ owned := hp.id_lt owned
  children _ owned _ child := hp.id_lt (Node.child_mem_nodes child owned)
  groups n owned g h := by
    obtain ⟨c, hc, group⟩ := hp.closed n owned g h
    have target : c.id = g.id := by
      cases c <;> cases group
      rfl
    exact target ▸ hp.id_lt hc
  routes id route found turn listed := by
    obtain ⟨k, hk, ancestor, c, child, next, -⟩ :=
      (Node.leadsTo_of_routeTo? found).turns turn listed
    rw [← ancestor, ← next]
    exact ⟨hp.id_lt hk, hp.id_lt (Node.child_mem_nodes child hk)⟩
  slots n owned index h := by
    rw [(MatchState.within_start [] p.captureCount).slots]
    exact (hp.fits owned).slot index h
  classes tag members owned := by
    have sound : members.WellFormed := hp.sound _ owned
    exact ⟨sound.counted, sound.complement.counted⟩
  quantifiers tag q body owned := Quantifier.WellFormed.inBounds (hp.sound _ owned)

theorem states? (hp : p.WellFormed) (w : List Char) :
    p.root.states? w.toArray (.start p.captureCount) =
      some (p.root.states w.toArray (.start p.captureCount)) :=
  Node.states?_eq (fun _ owned => hp.fits owned) (MatchState.within_start w p.captureCount)

theorem ensures_generate (hp : p.WellFormed) (slack : Nat) :
    (((Generator.conforming slack).generate p.root).Ensures
      GenerationError.IsEmptyAlphabet fun _ => True) ∧
    ∀ e ∈ p.eligible, ((Generator.invalidating slack p.root e.id).generate p.root).Ensures
      GenerationError.IsEmptyAlphabet fun _ => True := by
  have owned := p.root.self_mem_nodes
  constructor
  · exact ((Generator.steers_conforming slack p.root).spells hp owned).mono fun _ _ => trivial
  · intro e eligible
    have steers := (Generator.Steers.of_eligible slack hp.distinct eligible).1
    exact (steers.spells hp owned).mono fun _ _ => trivial

end WellFormed

end Pattern

theorem verify_cases (source : String) (w : List Char) :
    verify source w = .ok () ∨ verify source w = .error (.stillConforms w) ∨
      ∃ e, verify source w = .error (.invalidPattern e) := by
  unfold verify
  split
  · rename_i e _
    exact .inr (.inr ⟨e, rfl⟩)
  · split
    · exact .inr (.inl rfl)
    · exact .inl rfl

theorem not_isFault_of_synthesizeSeeded {source : String} {slack : Nat} {seed : UInt64}
    {e : GenerationError} (failed : synthesizeSeeded source slack seed = .error e) :
    ¬e.IsFault := by
  cases parsed : Pattern.parse source with
  | error flaw =>
      rw [synthesizeSeeded_of_error parsed] at failed
      cases failed
      exact id
  | ok p =>
      cases marked : p.hasMarker with
      | false =>
          obtain ⟨node, rfl⟩ := isEmptyAlphabet_of_unmarked parsed marked failed
          exact id
      | true =>
          rcases synthesizeSeeded_cases slack seed parsed marked with
            ⟨other, -, ends, ⟨rfl, -⟩ | ⟨⟨node, rfl⟩, -⟩⟩ | ⟨w, -, -, ⟨-, ends⟩ | ⟨-, ends⟩⟩ <;>
          cases ends.symm.trans failed <;> exact id

/-- No input makes a step of parsing, choosing, generating or verifying reach out of
bounds: tokens end inside the text and its counts stay words, classes are counted within
their alphabets at every step, a tree has only identities and slots that exist, checked
matching succeeds on every string, and the errors of a run are those that say what is wrong
with the pattern. -/
theorem nothing_faults (source : String) :
    (∀ c rest, 1 ≤ (scanToken c rest).2 ∧ (scanToken c rest).2 ≤ rest.length + 1) ∧
    (∀ digits d, numberOf 10 digits ≤ maxRepeat → d < 10 →
      numberOf 10 (digits ++ [d]) ≤ largestCount) ∧
    (∀ (c : CharClass) lo hi,
      c.insertRange lo hi = .error .invalidRange ↔ hi.toNat < lo.toNat) ∧
    (∀ negated start cs k c,
      (CharClass.ofPolarity negated).insertItems ((scanClassBody start true 0 cs).items.take k) =
        .ok c → c.Counted ∧ ∀ a, (c.grow a).Counted) ∧
    (∀ start position cs members,
      (position, ClassItem.set members) ∈ (scanClassBody start true 0 cs).items →
        members.Counted) ∧
    (∀ ch, (CharClass.allExcept ch).Counted) ∧
    (∀ (g : Generator) (q : Quantifier), q.min = 0 → g.violatingCount q = match q.max with
      | none => throw .impossibleInvalidation
      | some max => Generation.number
          (Source.between (max + 1) (Nat.min (max + Nat.max g.slack 1) largestCount))) ∧
    (∀ p, Pattern.parse source = .ok p ∨ Pattern.parseUnmarked source = .ok p →
      p.InBounds ∧
      (∀ w : List Char, p.root.states? w.toArray (.start p.captureCount) =
        some (p.root.states w.toArray (.start p.captureCount))) ∧
      p.choose.Ensures (· = .impossibleInvalidation) (· ∈ p.eligible) ∧
      ∀ slack,
        (((Generator.conforming slack).generate p.root).Ensures
          GenerationError.IsEmptyAlphabet fun _ => True) ∧
        ∀ e ∈ p.eligible, ((Generator.invalidating slack p.root e.id).generate p.root).Ensures
          GenerationError.IsEmptyAlphabet fun _ => True) ∧
    (∀ w, verify source w = .ok () ∨ verify source w = .error (.stillConforms w) ∨
      ∃ e, verify source w = .error (.invalidPattern e)) ∧
    ∀ slack seed e, synthesizeSeeded source slack seed = .error e → ¬e.IsFault := by
  refine ⟨bounds_of_scanToken, fun _ _ => numberOf_concat_le,
    fun _ _ _ => CharClass.insertRange_eq_invalidRange_iff,
    fun _ _ _ _ _ => CharClass.counted_insertItems,
    fun _ _ _ _ => CharClass.counted_of_mem_items,
    fun ch => (CharClass.wellFormed_allExcept ch).counted,
    fun _ _ => Generator.violatingCount_of_min_eq_zero, ?_, verify_cases source,
    fun _ _ _ => not_isFault_of_synthesizeSeeded⟩
  intro p parsed
  have hp : p.WellFormed :=
    parsed.elim Pattern.wellFormed_parse Pattern.wellFormed_parseUnmarked
  have chooses := p.ensures_choose.weaken fun _ failed => failed.1
  exact ⟨hp.inBounds, hp.states?, chooses, hp.ensures_generate⟩

theorem nothing_faults_reference :
    ∃ p, Pattern.parse "(a)\\1\\i\x7b2\x7d" = .ok p ∧ p.InBounds ∧ ∀ seed e,
      synthesizeSeeded "(a)\\1\\i\x7b2\x7d" 18446744073709551615 seed = .error e →
        ¬e.IsFault := by
  obtain ⟨-, -, -, -, -, -, -, trees, -, runs⟩ := nothing_faults "(a)\\1\\i\x7b2\x7d"
  exact ⟨_, rfl, (trees _ (.inl rfl)).1, runs _⟩

end PatternSampler
