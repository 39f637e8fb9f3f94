import PatternSampler.Proofs.Matching.Width
import PatternSampler.Proofs.Synthesis

/-!
# Breakages that show

In a fixed tree a breakage cannot hide.  A character that breaks a literal or a class stands
where the matcher comes to that node and to no other, and a wrong count outside of all
repetitions changes the length of the string.  So the check of what was generated never
refuses it.
-/

namespace PatternSampler

variable {text w : List Char} {slots slack hits k width : Nat} {chosen : Option Nat}
  {s t : MatchState}

theorem Misspells.length_eq {chars : List Char} (h : Misspells chars w) :
    w.length = chars.length := by
  obtain ⟨i, c, inside, -, rfl⟩ := h
  exact List.length_set

theorem Misspells.ne {chars : List Char} (h : Misspells chars w) : w ≠ chars := by
  obtain ⟨i, c, inside, other, rfl⟩ := h
  intro same
  have changed : (chars.set i c)[i]? = some c := by
    rw [List.getElem?_set_self inside]
  rw [same, List.getElem?_eq_getElem inside] at changed
  exact other (Option.some.inj changed).symm

theorem Parts.length_eq {P : List Char → Nat → Prop} (h : Parts P k w hits)
    (each : ∀ w hits, P w hits → w.length = width) : w.length = k * width := by
  induction h with
  | zero => rw [Nat.zero_mul, List.length_nil]
  | succ first _ ih =>
      rw [List.length_append, each _ _ first, ih, Nat.succ_mul, Nat.add_comm]

theorem Copied.length_eq {P : List Char → Nat → Prop} (h : Copied P k w hits)
    (each : ∀ w hits, P w hits → w.length = width) : w.length = k * width := by
  cases h with
  | zero => rw [Nat.zero_mul, List.length_nil]
  | succ unit =>
      rw [List.length_flatten, List.map_replicate, List.sum_replicate_nat, each _ _ unit]

theorem Repetitions.length_eq {P : List Char → Nat → Prop} {same : Bool}
    (h : Repetitions P same k w hits) (each : ∀ w hits, P w hits → w.length = width) :
    w.length = k * width := by
  cases same with
  | false => exact Parts.length_eq h each
  | true => exact Copied.length_eq h each

namespace Node

/-- None of the repetitions in the tree is the chosen node. -/
def Counts (chosen : Option Nat) (n : Node) : Prop :=
  ∀ tag q body, .rep tag q body ∈ n.nodes → chosen ≠ some tag.id

theorem Counts.child {c n : Node} (h : n.Counts chosen) (child : c ∈ n.children) :
    c.Counts chosen :=
  fun tag q body owned => h tag q body (mem_nodes_of_child child owned)

theorem DerivesEach.length_eq {ns : List Node} (h : DerivesEach slack chosen ns w hits)
    (each : ∀ n ∈ ns, ∀ w hits, n.Derives slack chosen w hits → w.length = n.width) :
    w.length = widthOfAll ns := by
  induction ns generalizing w hits with
  | nil =>
      obtain ⟨rfl, -⟩ := h
      rfl
  | cons n rest ih =>
      obtain ⟨hn, hrest⟩ := List.forall_mem_cons.1 each
      obtain ⟨u, v, i, j, rfl, -, first, others⟩ := h
      rw [List.length_append, hn _ _ first, ih others hrest, widthOfAll]

theorem Derives.length_eq {n : Node} (h : n.Derives slack chosen w hits)
    (fixed : ∀ m ∈ n.nodes, m.Fixed) (counts : n.Counts chosen) : w.length = n.width := by
  induction n generalizing w hits with
  | text tag chars =>
      rw [Derives] at h
      split at h
      · exact h.1.length_eq
      · rw [h.1]
        rfl
  | set tag members =>
      obtain ⟨c, rfl, -⟩ := h
      rfl
  | rep tag quantifier body ih =>
      obtain ⟨own, below⟩ := forall_mem_nodes.1 fixed
      obtain ⟨count, inner, spelled, h⟩ := h
      rw [if_neg (counts tag quantifier body (self_mem_nodes _))] at h
      have child := List.mem_singleton_self body
      rw [spelled.length_eq fun w hits h => ih h (below body child) (counts.child child),
        (Quantifier.allows_iff_eq own).1 h.1.1]
      rfl
  | seq tag children ih =>
      obtain ⟨-, below⟩ := forall_mem_nodes.1 fixed
      exact DerivesEach.length_eq h fun n hn w hits h => ih n hn h (below n hn) (counts.child hn)
  | alt tag children ih => exact (fixed _ (self_mem_nodes _)).elim
  | group tag body ih | capture tag index name body ih =>
      obtain ⟨-, below⟩ := forall_mem_nodes.1 fixed
      have child := List.mem_singleton_self body
      exact ih h (below body child) (counts.child child)
  | backref tag target index body ih => exact (fixed _ (self_mem_nodes _)).elim

end Node

/-- A string of the one kind that stands at a state from which the other leads on holds no
breakage. -/
def Clean (text : List Char) (slots : Nat) (P : List Char → Nat → Prop)
    (R : MatchState → MatchState → Prop) : Prop :=
  ∀ w hits s t, P w hits → s.Within text slots → w <+: text.drop s.position → R s t → hits = 0

section

variable {P : List Char → Nat → Prop} {R : MatchState → MatchState → Prop}

theorem Clean.parts (clean : Clean text slots P R)
    (move : ∀ s t, s.Within text slots → R s t → s.Moves text slots t)
    (length : ∀ w hits, P w hits → w.length = width)
    (step : ∀ s t, s.Within text slots → R s t → t.position = s.position + width) :
    Clean text slots (Parts P k) (Rounds R k) := by
  intro w hits s t parts hs standing rounds
  induction parts generalizing s with
  | zero => rfl
  | succ first others ih =>
      cases rounds with
      | @succ _ _ u _ lead rounds =>
          obtain ⟨here, after⟩ := append_isPrefix_iff.1 standing
          rw [List.drop_drop, length _ _ first, ← step _ _ hs lead] at after
          rw [clean _ _ _ _ first hs here lead, ih u (move _ _ hs lead).within after rounds]

end

namespace Node

theorem clean_each {ns : List Node}
    (each : ∀ n ∈ ns, Clean text slots (n.Derives slack chosen) (n.Leads text))
    (length : ∀ n ∈ ns, ∀ w hits, n.Derives slack chosen w hits → w.length = n.width)
    (step : ∀ n ∈ ns, ∀ s t, s.Within text slots → n.Leads text s t →
      t.position = s.position + n.width) :
    Clean text slots (DerivesEach slack chosen ns) (LeadsAfter text ns) := by
  intro w hits s t derived hs standing leads
  induction ns generalizing w hits s with
  | nil => exact derived.2
  | cons n rest ih =>
      obtain ⟨cleanFirst, cleanRest⟩ := List.forall_mem_cons.1 each
      obtain ⟨lengthFirst, lengthRest⟩ := List.forall_mem_cons.1 length
      obtain ⟨stepFirst, stepRest⟩ := List.forall_mem_cons.1 step
      obtain ⟨u, v, i, j, rfl, rfl, first, others⟩ := derived
      obtain ⟨r, lead, leads⟩ := leads
      obtain ⟨here, after⟩ := append_isPrefix_iff.1 standing
      rw [List.drop_drop, lengthFirst _ _ first, ← stepFirst _ _ hs lead] at after
      rw [cleanFirst _ _ _ _ first hs here lead,
        ih cleanRest lengthRest stepRest v j r others (lead.moves hs).within after leads]

theorem eq_of_isPrefix {u v l : List Char} (length : u.length = v.length) (hu : u <+: l)
    (hv : v <+: l) : u = v := by
  rw [List.prefix_iff_eq_take.1 hu, List.prefix_iff_eq_take.1 hv, length]

/-- A string that stands where a fixed tree is matched holds no breakage of a literal or of a
class. -/
theorem clean {n : Node} (fixed : ∀ m ∈ n.nodes, m.Fixed) (counts : n.Counts chosen) :
    Clean text slots (n.Derives slack chosen) (n.Leads text) := by
  induction n with
  | text tag chars =>
      intro w hits s t derived hs standing lead
      rw [Derives] at derived
      split at derived
      · obtain ⟨misspelled, -⟩ := derived
        exact absurd (eq_of_isPrefix misspelled.length_eq standing lead.1) misspelled.ne
      · exact derived.2
  | set tag members =>
      rintro w hits s t ⟨c, rfl, -, derived⟩ hs standing ⟨d, contained, reads, -⟩
      have same : [c] = [d] := eq_of_isPrefix rfl standing reads
      cases same
      split at derived
      · rw [derived.1] at contained
        cases contained
      · exact derived.2
  | rep tag quantifier body ih =>
      obtain ⟨own, below⟩ := forall_mem_nodes.1 fixed
      have child := List.mem_singleton_self body
      have inside := ih (below body child) (counts.child child)
      rintro w hits s t ⟨count, inner, spelled, derived⟩ hs standing lead
      rw [if_neg (counts tag quantifier body (self_mem_nodes _))] at derived
      obtain ⟨⟨allowed, -⟩, rfl⟩ := derived
      have counted := (Quantifier.allows_iff_eq own).1 allowed
      rw [Leads] at lead
      cases same : quantifier.same with
      | false =>
          rw [same] at spelled lead
          obtain ⟨k, allowed, rounds⟩ := lead
          obtain rfl : k = count := ((Quantifier.allows_iff_eq own).1 allowed).trans counted.symm
          exact inside.parts (fun s t hs h => h.moves hs)
            (fun w hits h => h.length_eq (below body child) (counts.child child))
            (fun s t hs h => h.position_eq (below body child) hs) w hits s t spelled hs standing
            rounds
      | true =>
          rw [same] at spelled lead
          cases spelled with
          | zero => rfl
          | @succ k u _ unit =>
              rcases lead with ⟨none, -⟩ | ⟨-, r, -, lead, -⟩
              · have := (Quantifier.allows_iff_eq own).1 none
                omega
              · rw [List.replicate_succ, List.flatten_cons] at standing
                exact inside u hits s r unit hs (append_isPrefix_iff.1 standing).1 lead
  | seq tag children ih =>
      obtain ⟨-, below⟩ := forall_mem_nodes.1 fixed
      exact clean_each (fun n hn => ih n hn (below n hn) (counts.child hn))
        (fun n hn w hits h => h.length_eq (below n hn) (counts.child hn))
        fun n hn s t hs h => h.position_eq (below n hn) hs
  | alt tag children ih => exact (fixed _ (self_mem_nodes _)).elim
  | group tag body ih =>
      obtain ⟨-, below⟩ := forall_mem_nodes.1 fixed
      have child := List.mem_singleton_self body
      exact ih (below body child) (counts.child child)
  | capture tag index name body ih =>
      obtain ⟨-, below⟩ := forall_mem_nodes.1 fixed
      have child := List.mem_singleton_self body
      rintro w hits s t derived hs standing ⟨u, lead, -, -⟩
      exact ih (below body child) (counts.child child) w hits s u derived hs standing lead
  | backref tag target index body ih => exact (fixed _ (self_mem_nodes _)).elim

end Node

namespace Node

theorem counts_of_apart {c d e : Node} (apart : ∀ k ∈ c.nodes, ∀ m ∈ d.nodes, k.id ≠ m.id)
    (owned : e ∈ c.nodes) : d.Counts (some e.id) :=
  fun _ _ _ listed same => apart e owned _ listed (Option.some.inj same)

theorem DerivesEach.length_ne {ns : List Node} {e : Node}
    (h : DerivesEach slack (some e.id) ns w hits) (fixed : ∀ n ∈ ns, ∀ m ∈ n.nodes, m.Fixed)
    (apart : ns.Pairwise fun c d => ∀ k ∈ c.nodes, ∀ m ∈ d.nodes, k.id ≠ m.id)
    (owned : ∃ n ∈ ns, e ∈ n.nodes)
    (each : ∀ n ∈ ns, e ∈ n.nodes → ∀ w hits, n.Derives slack (some e.id) w hits →
      w.length ≠ n.width) : w.length ≠ widthOfAll ns := by
  induction ns generalizing w hits with
  | nil => simp at owned
  | cons n rest ih =>
      obtain ⟨eachFirst, eachRest⟩ := List.forall_mem_cons.1 each
      obtain ⟨fixedFirst, fixedRest⟩ := List.forall_mem_cons.1 fixed
      obtain ⟨apartFirst, apartRest⟩ := List.pairwise_cons.1 apart
      obtain ⟨u, v, i, j, rfl, -, first, others⟩ := h
      rw [List.length_append, widthOfAll]
      obtain ⟨m, listed, below⟩ := owned
      rcases List.mem_cons.1 listed with rfl | listed
      · have same := others.length_eq fun c hc w hits h =>
          h.length_eq (fixedRest c hc) (counts_of_apart (apartFirst c hc) below)
        have := eachFirst below u i first
        omega
      · have counts : n.Counts (some e.id) :=
          counts_of_apart (fun k hk d hd => (apartFirst m listed d hd k hk).symm) below
        have same := first.length_eq fixedFirst counts
        have := ih others fixedRest apartRest ⟨m, listed, below⟩ eachRest
        omega

theorem Derives.length_ne {n : Node} {tag : Tag} {quantifier : Quantifier} {body : Node}
    (h : n.Derives slack (some tag.id) w hits) (fixed : ∀ m ∈ n.nodes, m.Fixed)
    (distinct : n.Distinct) (owned : .rep tag quantifier body ∈ n.nodes) (wide : body.width ≠ 0)
    (outermost : ∀ other q inner, .rep other q inner ∈ n.nodes →
      .rep tag quantifier body ∉ inner.nodes) : w.length ≠ n.width := by
  induction n generalizing w hits with
  | text | set =>
      rcases mem_nodes.1 owned with same | ⟨c, child, -⟩
      · cases same
      · simp [children] at child
  | rep other q inner ih =>
      rcases mem_nodes.1 owned with same | ⟨c, child, below⟩
      · cases same
        obtain ⟨own, below⟩ := forall_mem_nodes.1 fixed
        obtain ⟨count, inner, spelled, h⟩ := h
        rw [if_pos rfl] at h
        have child := List.mem_singleton_self body
        have counts : body.Counts (some tag.id) := fun tag' _ _ listed same =>
          distinct.id_ne child listed (Option.some.inj same).symm
        rw [spelled.length_eq fun w hits h => h.length_eq (below body child) counts]
        intro same
        have equal := Nat.eq_of_mul_eq_mul_right (Nat.pos_of_ne_zero wide) same
        exact h.1.1 ((Quantifier.allows_iff_eq own).2 equal)
      · obtain rfl : c = inner := List.mem_singleton.1 child
        exact absurd below (outermost other q c (self_mem_nodes _))
  | seq other children ih =>
      obtain ⟨-, below⟩ := forall_mem_nodes.1 fixed
      rcases mem_nodes.1 owned with same | under
      · cases same
      · refine DerivesEach.length_ne (e := .rep tag quantifier body) h below
          (distinct_iff.1 distinct).2.1 under fun n hn inside w hits h => ?_
        exact ih n hn h (below n hn) (distinct.child hn) inside fun other q inner listed =>
          outermost other q inner (mem_nodes_of_child hn listed)
  | alt => exact (fixed _ (self_mem_nodes _)).elim
  | group other inner ih | capture other index name inner ih =>
      obtain ⟨-, below⟩ := forall_mem_nodes.1 fixed
      have child := List.mem_singleton_self inner
      rcases mem_nodes.1 owned with same | ⟨c, under, inside⟩
      · cases same
      · obtain rfl : c = inner := List.mem_singleton.1 under
        exact ih h (below c child) (distinct.child child) inside fun other q inner listed =>
          outermost other q inner (mem_nodes_of_child child listed)
  | backref => exact (fixed _ (self_mem_nodes _)).elim

end Node

namespace Pattern

variable {source : String} {p : Pattern} {e : Node}

/-- A breakage of the node shows: it is one of a character, or one of a count that no other
repetition multiplies. -/
def Exposes (p : Pattern) : Node → Prop
  | .text .. | .set .. => True
  | .rep tag quantifier body => body.width ≠ 0 ∧ ∀ other q inner,
      .rep other q inner ∈ p.root.nodes → .rep tag quantifier body ∉ inner.nodes
  | _ => False

theorem WellFormed.not_accepts_of_exposed (hp : p.WellFormed)
    (fixed : ∀ n ∈ p.root.nodes, n.Fixed) (owned : e ∈ p.root.nodes) (exposed : p.Exposes e)
    (derived : p.root.Derives slack (some e.id) w hits) (some : 0 < hits) : ¬p.Accepts w := by
  rintro ⟨t, lead, ends⟩
  have within := MatchState.within_start w p.captureCount
  have inside (literal : p.root.Counts (Option.some e.id)) : False := by
    have none := Node.clean fixed literal w hits _ t derived within List.prefix_rfl lead
    omega
  have other {tag : Tag} {q : Quantifier} {body : Node} (listed : .rep tag q body ∈ p.root.nodes)
      (same : Option.some e.id = Option.some tag.id) : e = .rep tag q body :=
    hp.distinct.eq_of_id_eq owned listed (Option.some.inj same)
  cases e with
  | text | set => exact inside fun _ _ _ listed same => by cases other listed same
  | rep tag quantifier body =>
      have length := derived.length_ne fixed hp.distinct owned exposed.1 exposed.2
      have position := lead.position_eq fixed within
      rw [← ends, position] at length
      exact length (Nat.zero_add _)
  | seq | alt | group | capture | backref => exact exposed.elim

theorem verify_of_not_accepts (parsed : parse source = .ok p) (rejected : ¬p.Accepts w) :
    verify source w = .ok () := by
  have unmatched : p.isMatch w = false := by
    rwa [← Bool.not_eq_true, (wellFormed_parse parsed).isMatch_iff]
  rw [verify_eq parsed, unmatched]
  rfl

theorem steered_of_choose {random : Source} (slack : Nat)
    (chosen : (p.choose.run.run random).1 = .ok e) :
    ∃ later, ((p.steered slack).run.run random).1 =
      (((Generator.invalidating slack p.root e.id).generate p.root).run.run later).1 := by
  simp only [steered, ExceptT.run_bind, StateT.run_bind]
  generalize p.choose.run.run random = drawn at chosen ⊢
  obtain ⟨outcome, later⟩ := drawn
  cases chosen
  exact ⟨later, rfl⟩

/-- In a fixed pattern whatever is generated to break a literal, a class or an outermost
repetition passes the check, so the result is never refused. -/
theorem verify_of_exposed (parsed : parse source = .ok p) (fixed : ∀ n ∈ p.root.nodes, n.Fixed)
    (eligible : e ∈ p.eligible) (exposed : p.Exposes e) (slack : Nat) :
    (∀ random w,
      (((Generator.invalidating slack p.root e.id).generate p.root).run.run random).1 = .ok w →
        verify source w = .ok ()) ∧
    ∀ seed, (p.choose.run.run (.ofSeed seed)).1 = .ok e →
      ∀ w, synthesizeSeeded source slack seed ≠ .error (.stillConforms w) := by
  have hp := wellFormed_parse parsed
  obtain ⟨steers, bound⟩ := Generator.Steers.of_eligible slack hp.distinct eligible
  have spells := steers.spells hp p.root.self_mem_nodes
  have rejected (random : Source) (w : List Char)
      (generated :
        (((Generator.invalidating slack p.root e.id).generate p.root).run.run random).1 = .ok w) :
      ¬p.Accepts w := by
    obtain ⟨hits, derived, passes⟩ := spells.of_ok generated
    exact hp.not_accepts_of_exposed fixed (Node.mem_nodes_of_eligible eligible) exposed derived
      (passes bound)
  refine ⟨fun random w generated => verify_of_not_accepts parsed (rejected random w generated),
    fun seed chosen w refused => ?_⟩
  cases marked : p.hasMarker with
  | false =>
      obtain ⟨node, same⟩ := isEmptyAlphabet_of_unmarked parsed marked refused
      cases same
  | true =>
      obtain ⟨later, same⟩ := steered_of_choose slack chosen
      rw [synthesizeSeeded_marked parsed marked, same] at refused
      cases generated :
          (((Generator.invalidating slack p.root e.id).generate p.root).run.run later).1 with
      | error failure =>
          obtain ⟨node, rfl⟩ := spells.of_error generated
          rw [generated] at refused
          cases refused
      | ok v =>
          have unmatched : ¬p.isMatch v = true := by
            rw [hp.isMatch_iff]
            exact rejected later v generated
          rw [generated] at refused
          change (if p.isMatch v = true then _ else _) = _ at refused
          rw [if_neg unmatched] at refused
          cases refused

theorem verify_of_exposed_copies :
    ∃ p, parse "(?:x\\i[a-z]){=2}" = .ok p ∧ (∀ n ∈ p.root.nodes, n.Fixed) ∧
      ∃ e ∈ p.eligible, p.Exposes e ∧
        verify "(?:x\\i[a-z]){=2}" ['x', '\x1b', 'x', '\x1b'] = .ok () := by
  have parsed : parse "(?:x\\i[a-z]){=2}" = .ok _ := rfl
  have fixed {p : Pattern} (parsed : parse "(?:x\\i[a-z]){=2}" = .ok p) :
      ∀ n ∈ p.root.nodes, n.Fixed := by
    cases parsed
    exact List.forall_mem_cons.2 ⟨trivial, List.forall_mem_cons.2 ⟨trivial, List.forall_mem_cons.2
      ⟨trivial, List.forall_mem_cons.2 ⟨trivial, List.forall_mem_singleton.2 rfl⟩⟩⟩⟩
  obtain ⟨checked, -⟩ :=
    verify_of_exposed parsed (fixed parsed) (List.mem_singleton_self _) trivial 10
  exact ⟨_, parsed, fixed parsed, _, List.mem_singleton_self _, trivial, checked (.ofSeed 7) _ rfl⟩

end Pattern

end PatternSampler
