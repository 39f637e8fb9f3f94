import PatternSampler.Proofs.Matching.Copies
import PatternSampler.Proofs.Matching.Rounds

/-!
# Matching is exact

The states that the matcher lists for a node are those that the node leads to, no more
and no fewer.  This needs a tree whose groups and back references have a slot each and
whose quantifiers have their bounds in order, as every parsed tree has.
-/

namespace PatternSampler

namespace Node

def slot? : Node → Option Nat
  | capture _ index _ _ => some index
  | backref _ _ index _ => some index
  | _ => none

structure Fits (slots : Nat) (n : Node) : Prop where
  sound : n.WellFormed
  slot : ∀ index ∈ n.slot?, index < slots

end Node

theorem Pattern.WellFormed.fits {p : Pattern} (hp : p.WellFormed) {n : Node}
    (owned : n ∈ p.root.nodes) : n.Fits (p.captureCount + 1) where
  sound := hp.sound n owned
  slot index h := by
    cases n with
    | capture tag index name body =>
        cases h
        exact hp.index_lt owned (g := ⟨index, tag.id, body⟩) rfl
    | backref tag target index body =>
        cases h
        obtain ⟨c, hc, group⟩ := hp.closed _ owned ⟨index, target, body⟩ rfl
        exact hp.index_lt hc group
    | _ => cases h

variable {text : List Char} {slots : Nat} {s t : MatchState}

namespace Node

theorem mem_statesAfter {ns : List Node} {ss : List MatchState}
    (agree : ∀ n ∈ ns, ∀ s t, s.Within text slots →
      (t ∈ n.states text.toArray s ↔ n.Leads text s t))
    (within : ∀ s ∈ ss, s.Within text slots) :
    t ∈ statesAfter text.toArray ns ss ↔ ∃ s ∈ ss, LeadsAfter text ns s t := by
  induction ns generalizing ss with
  | nil => simp [statesAfter, LeadsAfter]
  | cons n rest ih =>
      obtain ⟨hn, hrest⟩ := List.forall_mem_cons.1 agree
      have listed (u : MatchState) : u ∈ distinct (ss.flatMap (n.states text.toArray)) ↔
          ∃ s ∈ ss, n.Leads text s u := by
        simp only [mem_distinct, List.mem_flatMap]
        exact exists_congr fun s => and_congr_right fun hs => hn s u (within s hs)
      rw [statesAfter, ih hrest]
      · simp only [listed, LeadsAfter]
        constructor
        · rintro ⟨u, ⟨s, hs, first⟩, others⟩
          exact ⟨s, hs, u, first, others⟩
        · rintro ⟨s, hs, u, first, others⟩
          exact ⟨u, ⟨s, hs, first⟩, others⟩
      · intro u hu
        obtain ⟨s, hs, first⟩ := (listed u).1 hu
        exact (first.moves (within s hs)).within

theorem mem_statesAmong {ns : List Node} :
    t ∈ statesAmong text.toArray ns s ↔ ∃ n ∈ ns, t ∈ n.states text.toArray s := by
  induction ns with
  | nil => simp [statesAmong]
  | cons n rest ih => simp [statesAmong, ih]

theorem mem_states_of_fits {n : Node} (fits : ∀ m ∈ n.nodes, m.Fits slots)
    (hs : s.Within text slots) : t ∈ n.states text.toArray s ↔ n.Leads text s t := by
  induction n generalizing s t with
  | text tag chars =>
      rw [states, Leads, Reads, ← spells_iff]
      split <;> simp_all
  | set tag members =>
      have reads (c : Char) : Reads text [c] s t ↔
          text[s.position]? = some c ∧ t = s.advance 1 := by
        rw [Reads, ← spells_iff]
        simp [spells]
      simp only [states, Leads, reads, List.getElem?_toArray]
      cases text[s.position]? with
      | none => simp
      | some c => cases hc : members.contains c <;> simp [hc]
  | rep tag quantifier body ih =>
      obtain ⟨⟨own, -⟩, below⟩ := forall_mem_nodes.1 fits
      have agree (s t : MatchState) (hs : s.Within text slots) :
          t ∈ body.states text.toArray s ↔ body.Leads text s t :=
        ih (below body (List.mem_singleton_self body)) hs
      have move (s t : MatchState) (hs : s.Within text slots)
          (ht : t ∈ body.states text.toArray s) : s.Moves text slots t :=
        ((agree s t hs).1 ht).moves hs
      rw [states, Leads]
      cases quantifier.same with
      | true =>
          rw [if_pos rfl, mem_distinct, mem_equalStates own.ordered (move s · hs)]
          simp [agree s _ hs]
      | false =>
          have rounds (k : Nat) :
              Rounds (Yields (body.states text.toArray)) k s t ↔ Rounds (body.Leads text) k s t :=
            ⟨fun h => h.imp move (fun s t hs => (agree s t hs).1) hs,
              fun h => h.imp (fun _ _ hs h => h.moves hs) (fun s t hs => (agree s t hs).2) hs⟩
          rw [if_neg Bool.false_ne_true, hs.slots, List.size_toArray, mem_repeatStates move hs]
          simp only [rounds]
  | seq tag children ih =>
      obtain ⟨-, below⟩ := forall_mem_nodes.1 fits
      have agree (n : Node) (hn : n ∈ children) (s t : MatchState) (hs : s.Within text slots) :
          t ∈ n.states text.toArray s ↔ n.Leads text s t :=
        ih n hn (below n hn) hs
      rw [states, Leads, mem_statesAfter agree (by simpa using hs)]
      simp
  | alt tag children ih =>
      obtain ⟨-, below⟩ := forall_mem_nodes.1 fits
      rw [states, Leads, leadsAmong_iff, mem_distinct, mem_statesAmong]
      exact exists_congr fun n => and_congr_right fun hn => ih n hn (below n hn) hs
  | group tag body ih =>
      obtain ⟨-, below⟩ := forall_mem_nodes.1 fits
      exact ih (below body (List.mem_singleton_self body)) hs
  | capture tag index name body ih =>
      obtain ⟨⟨-, slot⟩, below⟩ := forall_mem_nodes.1 fits
      have agree (t : MatchState) : t ∈ body.states text.toArray s ↔ body.Leads text s t :=
        ih (below body (List.mem_singleton_self body)) hs
      rw [states, Leads, mem_distinct, List.mem_map]
      apply exists_congr
      intro u
      rw [agree, eq_comm]
      apply and_congr_right
      intro lead
      rw [and_iff_right ((lead.moves hs).within.slots ▸ slot index rfl)]
  | backref tag target index body _ =>
      obtain ⟨⟨-, slot⟩, -⟩ := forall_mem_nodes.1 fits
      have inside : index < s.captures.length := hs.slots ▸ slot index rfl
      rw [states, Leads, MatchState.captured?, List.getElem?_eq_getElem inside, Option.join_some]
      cases s.captures[index] with
      | none => simp
      | some span =>
          obtain ⟨start, stop⟩ := span
          simp [stretch_eq, Reads, spells_iff]

end Node

namespace Node

section

variable {text : Array Char} {f : Node → Node} {ns : List Node}

theorem statesAfter_map (each : ∀ n ∈ ns, (f n).states text = n.states text)
    (ss : List MatchState) : statesAfter text (ns.map f) ss = statesAfter text ns ss := by
  induction ns generalizing ss with
  | nil => rfl
  | cons n rest ih =>
      obtain ⟨hn, hrest⟩ := List.forall_mem_cons.1 each
      rw [List.map_cons, statesAfter, statesAfter, hn, ih hrest]

theorem statesAmong_map (each : ∀ n ∈ ns, (f n).states text = n.states text)
    (s : MatchState) : statesAmong text (ns.map f) s = statesAmong text ns s := by
  induction ns with
  | nil => rfl
  | cons n rest ih =>
      obtain ⟨hn, hrest⟩ := List.forall_mem_cons.1 each
      rw [List.map_cons, statesAmong, statesAmong, hn, ih hrest]

end

theorem states_bare (text : Array Char) (n : Node) : n.bare.states text = n.states text := by
  induction n with
  | text | set | backref => rfl
  | rep tag quantifier body ih =>
      funext s
      simp only [bare, states, ih]
  | seq tag children ih =>
      funext s
      rw [bare, bareEach_eq, states, states, statesAfter_map ih]
  | alt tag children ih =>
      funext s
      rw [bare, bareEach_eq, states, states, statesAmong_map ih]
  | group tag body ih => exact ih
  | capture tag index name body ih =>
      funext s
      simp only [bare, states, ih]

end Node

namespace Pattern

/-- In every parsed tree the matcher lists exactly the states that a node leads to. -/
theorem mem_states {source : String} {p : Pattern}
    (parsed : parse source = .ok p ∨ parseUnmarked source = .ok p) {n : Node}
    (owned : n ∈ p.root.nodes) {text : List Char} {s : MatchState}
    (within : s.Within text (p.captureCount + 1)) (t : MatchState) :
    t ∈ n.states text.toArray s ↔ n.Leads text s t := by
  have wellFormed : p.WellFormed := parsed.elim wellFormed_parse wellFormed_parseUnmarked
  exact Node.mem_states_of_fits
    (fun m hm => wellFormed.fits (Node.mem_nodes_trans hm owned)) within

theorem leads_reference :
    ∃ p, parse "(a)\\1" = .ok p ∧
      p.root.Leads ['a', 'a'] (.start p.captureCount) ⟨2, [none, some (0, 1)]⟩ := by
  have parsed : parse "(a)\\1" = .ok _ := rfl
  refine ⟨_, parsed, (mem_states (.inl parsed) (Node.self_mem_nodes _)
    (MatchState.within_start _ _) _).1 ?_⟩
  decide

theorem WellFormed.isMatch_iff {p : Pattern} (hp : p.WellFormed) {text : List Char} :
    p.isMatch text = true ↔ p.Accepts text := by
  have agree (t : MatchState) := Node.mem_states_of_fits (t := t)
    (fun m hm => hp.fits hm) (MatchState.within_start text p.captureCount)
  simp [isMatch, Accepts, agree]

theorem exists_unmarked {source : String} {p : Pattern} (parsed : parse source = .ok p) :
    ∃ plain, parseUnmarked source = .ok plain ∧ ∀ text, plain.isMatch text = p.isMatch text := by
  obtain ⟨plain, unmarked, root, captureCount⟩ := parseUnmarked_of_parse parsed
  refine ⟨plain, unmarked, fun text => ?_⟩
  rw [isMatch, isMatch, root, captureCount, Node.states_bare]

end Pattern

end PatternSampler
