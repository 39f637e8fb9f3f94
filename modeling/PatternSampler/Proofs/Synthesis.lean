import PatternSampler.Synthesis
import PatternSampler.Proofs.Generation.Conforming

/-!
# Outcomes of a synthesis

Every outcome is decided by the parse, by whether something can be broken, and by whether
the string that was steered towards a breakage is in the language of its pattern all the
same.
-/

namespace PatternSampler

open Generation

def Pattern.steered (p : Pattern) (slack : Nat) : Generation (List Char) := do
  let node ← p.choose
  (Generator.invalidating slack p.root node.id).generate p.root

namespace Pattern

variable {source : String} {p : Pattern}

theorem ensures_choose (p : Pattern) :
    p.choose.Ensures (fun e => e = .impossibleInvalidation ∧ p.eligible = []) (· ∈ p.eligible) := by
  apply (ensures_sample p.eligible).bind
  intro drawn hdrawn
  cases drawn with
  | some node => exact .pure hdrawn
  | none => exact .throw ⟨rfl, hdrawn⟩

theorem WellFormed.ensures_steered (hp : p.WellFormed) (slack : Nat) :
    (p.steered slack).Ensures
      (fun e => (e = .impossibleInvalidation ∧ p.eligible = []) ∨
        (e.IsEmptyAlphabet ∧ p.eligible ≠ []))
      (fun _ => p.eligible ≠ []) := by
  refine (p.ensures_choose.weaken fun e h => .inl h).bind fun node listed => ?_
  have some : p.eligible ≠ [] := List.ne_nil_of_mem listed
  have steers := (Generator.Steers.of_eligible slack hp.distinct listed).1
  exact ((steers.spells hp p.root.self_mem_nodes).weaken fun e h => .inr ⟨h, some⟩).mono
    fun _ _ => some

theorem verify_eq (parsed : parse source = .ok p) (w : List Char) :
    verify source w = if p.isMatch w then .error (.stillConforms w) else .ok () := by
  obtain ⟨plain, unmarked, same⟩ := exists_unmarked parsed
  simp [verify, unmarked, same]

end Pattern

theorem run_checked (run : Generation (List Char)) (check : List Char → Except GenerationError Unit)
    (random : Source) :
    ((run >>= fun w => match check w with
      | .error e => throw e
      | .ok () => pure w).run.run random).1 =
      (run.run.run random).1.bind fun w => (check w).map fun _ => w := by
  simp only [ExceptT.run_bind, StateT.run_bind]
  generalize run.run.run random = result
  obtain ⟨outcome, random⟩ := result
  cases outcome with
  | error e => rfl
  | ok w =>
      change ((match check w with
        | .error e => throw e
        | .ok () => pure w : Generation (List Char)).run.run random).1 = (check w).map fun _ => w
      cases check w <;> rfl

theorem map_eq_ok {ε α β : Type} {x : Except ε α} {f : α → β} {b : β} (h : x.map f = .ok b) :
    ∃ a, x = .ok a ∧ f a = b := by
  cases x with
  | error e => cases h
  | ok a =>
      cases h
      exact ⟨a, rfl, rfl⟩

theorem map_eq_error {ε α β : Type} {x : Except ε α} {f : α → β} {e : ε}
    (h : x.map f = .error e) : x = .error e := by
  cases x <;> cases h
  rfl

section

variable {source : String} {p : Pattern} {slack : Nat} {seed : UInt64}

theorem synthesizeSeeded_of_error {e : PatternError} (failed : Pattern.parse source = .error e) :
    synthesizeSeeded source slack seed = .error (.invalidPattern e) := by
  simp only [synthesizeSeeded, synthesize, failed]
  rfl

theorem synthesizeSeeded_unmarked (parsed : Pattern.parse source = .ok p)
    (plain : p.hasMarker = false) :
    synthesizeSeeded source slack seed =
      (((Generator.conforming slack).generate p.root).run.run (.ofSeed seed)).1.map
        String.ofList := by
  simp only [synthesizeSeeded, synthesize, parsed, plain]
  rfl

theorem synthesizeSeeded_marked (parsed : Pattern.parse source = .ok p)
    (marked : p.hasMarker = true) :
    synthesizeSeeded source slack seed =
      ((p.steered slack).run.run (.ofSeed seed)).1.bind fun w =>
        if p.isMatch w then .error (.stillConforms w) else .ok (String.ofList w) := by
  have checked : synthesize source slack = p.steered slack >>= fun w =>
      match verify source w with
        | .error e => throw e
        | .ok () => pure w := by
    rw [Pattern.steered, bind_assoc, synthesize, parsed]
    exact if_pos marked
  have outcome := run_checked (p.steered slack) (verify source) (.ofSeed seed)
  rw [← checked] at outcome
  change ((synthesize source slack).run.run (.ofSeed seed)).1.map String.ofList = _
  rw [outcome]
  cases ((p.steered slack).run.run (.ofSeed seed)).1 with
  | error e => rfl
  | ok w =>
      simp only [Except.bind, Pattern.verify_eq parsed]
      split <;> rfl

theorem synthesizeSeeded_cases (slack : Nat) (seed : UInt64) (parsed : Pattern.parse source = .ok p)
    (marked : p.hasMarker = true) :
    (∃ e, ((p.steered slack).run.run (.ofSeed seed)).1 = .error e ∧
      synthesizeSeeded source slack seed = .error e ∧
      ((e = .impossibleInvalidation ∧ p.eligible = []) ∨
        (e.IsEmptyAlphabet ∧ p.eligible ≠ []))) ∨
    ∃ w, ((p.steered slack).run.run (.ofSeed seed)).1 = .ok w ∧ p.eligible ≠ [] ∧
      ((p.Accepts w ∧ synthesizeSeeded source slack seed = .error (.stillConforms w)) ∨
        (¬p.Accepts w ∧ synthesizeSeeded source slack seed = .ok (String.ofList w))) := by
  have hp := Pattern.wellFormed_parse parsed
  have ensured := hp.ensures_steered slack
  rw [synthesizeSeeded_marked parsed marked]
  cases steered : ((p.steered slack).run.run (.ofSeed seed)).1 with
  | error e => exact .inl ⟨e, rfl, rfl, ensured.of_error steered⟩
  | ok w =>
      refine .inr ⟨w, rfl, ensured.of_ok steered, ?_⟩
      rw [← hp.isMatch_iff]
      cases matched : p.isMatch w with
      | true => exact .inl ⟨rfl, by simp [Except.bind, matched]⟩
      | false => exact .inr ⟨Bool.false_ne_true, by simp [Except.bind, matched]⟩

theorem isEmptyAlphabet_of_unmarked (parsed : Pattern.parse source = .ok p)
    (plain : p.hasMarker = false) {e : GenerationError}
    (failed : synthesizeSeeded source slack seed = .error e) : e.IsEmptyAlphabet := by
  have hp := Pattern.wellFormed_parse parsed
  have spells := (Generator.steers_conforming slack p.root).spells hp p.root.self_mem_nodes
  rw [synthesizeSeeded_unmarked parsed plain] at failed
  exact spells.of_error (map_eq_error failed)

theorem impossibleInvalidation_iff (parsed : Pattern.parse source = .ok p)
    (marked : p.hasMarker = true) :
    synthesizeSeeded source slack seed = .error .impossibleInvalidation ↔ p.eligible = [] := by
  rcases synthesizeSeeded_cases slack seed parsed marked with
    ⟨e, -, failed, ⟨rfl, none⟩ | ⟨⟨node, rfl⟩, some⟩⟩ | ⟨w, -, some, ⟨-, ends⟩ | ⟨-, ends⟩⟩
  · exact iff_of_true failed none
  · exact iff_of_false (by simp [failed]) some
  · exact iff_of_false (by simp [ends]) some
  · exact iff_of_false (by simp [ends]) some

theorem ok_iff_of_steered (parsed : Pattern.parse source = .ok p) (marked : p.hasMarker = true)
    {w : List Char} (steered : ((p.steered slack).run.run (.ofSeed seed)).1 = .ok w) :
    (synthesizeSeeded source slack seed = .ok (String.ofList w) ↔ ¬p.Accepts w) ∧
      (synthesizeSeeded source slack seed = .error (.stillConforms w) ↔ p.Accepts w) := by
  rcases synthesizeSeeded_cases slack seed parsed marked with
    ⟨e, other, -⟩ | ⟨v, same, -, ends⟩
  · simp [steered] at other
  · obtain rfl : w = v := by simpa [steered] using same
    rcases ends with ⟨accepts, ends⟩ | ⟨rejects, ends⟩
    · simp [ends, accepts]
    · simp [ends, rejects]

theorem invalidPattern_iff {e : PatternError} :
    synthesizeSeeded source slack seed = .error (.invalidPattern e) ↔
      Pattern.parse source = .error e := by
  constructor
  · intro failed
    cases parsed : Pattern.parse source with
    | error other =>
        rw [synthesizeSeeded_of_error parsed] at failed
        cases failed
        rfl
    | ok p =>
        cases marked : p.hasMarker with
        | false =>
            obtain ⟨node, same⟩ := isEmptyAlphabet_of_unmarked parsed marked failed
            cases same
        | true =>
            rcases synthesizeSeeded_cases slack seed parsed marked with
              ⟨other, -, ends, ⟨rfl, -⟩ | ⟨⟨node, rfl⟩, -⟩⟩ | ⟨w, -, -, ⟨-, ends⟩ | ⟨-, ends⟩⟩ <;>
            simp [failed] at ends
  · exact synthesizeSeeded_of_error

end

/-- What is generated without a chosen node is matched, and so is every string for a
pattern without markers. -/
theorem isMatch_of_generate {source : String} {p : Pattern}
    (parsed : Pattern.parse source = .ok p) (plain : ∀ n ∈ p.root.nodes, n.referred? = none)
    (slack : Nat) :
    ∃ unmarked, Pattern.parseUnmarked source = .ok unmarked ∧
      (∀ random w, (((Generator.conforming slack).generate p.root).run.run random).1 = .ok w →
        unmarked.isMatch w = true) ∧
      (p.hasMarker = false → ∀ seed w, synthesizeSeeded source slack seed = .ok w →
        unmarked.isMatch w.toList = true) := by
  have hp := Pattern.wellFormed_parse parsed
  obtain ⟨unmarked, reparsed, same⟩ := Pattern.exists_unmarked parsed
  refine ⟨unmarked, reparsed, ?_, ?_⟩
  · intro random w generated
    rw [same]
    exact hp.isMatch_of_conforming plain generated
  · intro noMarker seed w outcome
    rw [synthesizeSeeded_unmarked parsed noMarker] at outcome
    obtain ⟨chars, generated, rfl⟩ := map_eq_ok outcome
    rw [same, String.toList_ofList]
    exact hp.isMatch_of_conforming plain generated

theorem isMatch_of_generate_copies :
    ∃ p, Pattern.parse "[ab]{=2}" = .ok p ∧ (∀ n ∈ p.root.nodes, n.referred? = none) ∧
      ∃ unmarked, Pattern.parseUnmarked "[ab]{=2}" = .ok unmarked ∧
        unmarked.isMatch "aa".toList = true := by
  have plain {p : Pattern} (parsed : Pattern.parse "[ab]{=2}" = .ok p) :
      ∀ n ∈ p.root.nodes, n.referred? = none := by
    cases parsed
    exact List.forall_mem_cons.2 ⟨rfl, List.forall_mem_singleton.2 rfl⟩
  obtain ⟨unmarked, reparsed, -, synthesized⟩ :=
    isMatch_of_generate (rfl : Pattern.parse "[ab]{=2}" = .ok _) (plain rfl) 10
  exact ⟨_, rfl, plain rfl, unmarked, reparsed, synthesized rfl 7 "aa" rfl⟩

/-- The outcome of a synthesis for every text, slack and seed. -/
theorem synthesizeSeeded_outcome (source : String) (slack : Nat) (seed : UInt64) :
    (∀ e, synthesizeSeeded source slack seed = .error (.invalidPattern e) ↔
      Pattern.parse source = .error e) ∧
    ∀ p, Pattern.parse source = .ok p →
      (p.hasMarker = true →
        (∃ plain, Pattern.parseUnmarked source = .ok plain) ∧
        (synthesizeSeeded source slack seed = .error .impossibleInvalidation ↔ p.eligible = []) ∧
        (∀ w, ((p.steered slack).run.run (.ofSeed seed)).1 = .ok w →
          (synthesizeSeeded source slack seed = .ok (String.ofList w) ↔ ¬p.Accepts w) ∧
          (synthesizeSeeded source slack seed = .error (.stillConforms w) ↔ p.Accepts w)) ∧
        (p.eligible ≠ [] → ∀ e, ((p.steered slack).run.run (.ofSeed seed)).1 = .error e →
          synthesizeSeeded source slack seed = .error e ∧ e.IsEmptyAlphabet)) ∧
      (p.hasMarker = false →
        synthesizeSeeded source slack seed =
          (((Generator.conforming slack).generate p.root).run.run (.ofSeed seed)).1.map
            String.ofList ∧
        ∀ e, synthesizeSeeded source slack seed = .error e → e.IsEmptyAlphabet) := by
  constructor
  · intro e
    exact invalidPattern_iff
  · intro p parsed
    constructor
    · intro marked
      refine ⟨?_, impossibleInvalidation_iff parsed marked, ?_, ?_⟩
      · obtain ⟨plain, reparsed, -⟩ := Pattern.exists_unmarked parsed
        exact ⟨plain, reparsed⟩
      · intro w steered
        exact ok_iff_of_steered parsed marked steered
      · intro some e steered
        rcases synthesizeSeeded_cases slack seed parsed marked with
          ⟨other, same, ends, ⟨-, none⟩ | ⟨empty, -⟩⟩ | ⟨w, same, -⟩
        · exact absurd none some
        · obtain rfl : e = other := by simpa [steered] using same
          exact ⟨ends, empty⟩
        · simp [steered] at same
    · intro plain
      constructor
      · exact synthesizeSeeded_unmarked parsed plain
      · intro e failed
        exact isEmptyAlphabet_of_unmarked parsed plain failed

theorem synthesizeSeeded_outcome_digit :
    ∃ p, Pattern.parse "x\\i[0-9]" = .ok p ∧ synthesizeSeeded "x\\i[0-9]" 10 7 = .ok "xw" ∧
      ¬p.Accepts ['x', 'w'] := by
  obtain ⟨-, -, steered, -⟩ := ((synthesizeSeeded_outcome "x\\i[0-9]" 10 7).2 _ rfl).1 rfl
  exact ⟨_, rfl, rfl, (steered ['x', 'w'] rfl).1.1 rfl⟩

end PatternSampler
