import PatternSampler.Proofs.Generation.Steering
import PatternSampler.Proofs.Matching.Exact

/-!
# What conforms is matched

A derivation in which nothing deviates spells a match, wherever its characters stand in a
text.  So a string that is generated without a chosen node is accepted by the matcher.
Back references are left out, because they are generated anew and need not spell what
their group did.
-/

namespace PatternSampler

variable {text : List Char} {slots slack : Nat} {s : MatchState}

/-- Characters that stand in the text from `s` on take the relation as far as they reach. -/
def Covers (text : List Char) (slots : Nat) (P : List Char → Nat → Prop)
    (R : MatchState → MatchState → Prop) : Prop :=
  ∀ w hits s, P w hits → s.Within text slots → w <+: text.drop s.position →
    ∃ t, R s t ∧ t.position = s.position + w.length

section

variable {P : List Char → Nat → Prop} {R : MatchState → MatchState → Prop}

theorem Covers.first (covers : Covers text slots P R)
    (move : ∀ s t, s.Within text slots → R s t → s.Moves text slots t) {u v : List Char}
    {hits : Nat} (spelled : P u hits) (hs : s.Within text slots)
    (standing : u ++ v <+: text.drop s.position) :
    ∃ t, R s t ∧ t.Within text slots ∧ t.position = s.position + u.length ∧
      v <+: text.drop t.position := by
  obtain ⟨standing, after⟩ := append_isPrefix_iff.1 standing
  obtain ⟨t, taken, position⟩ := covers u hits s spelled hs standing
  rw [List.drop_drop, ← position] at after
  exact ⟨t, taken, (move s t hs taken).within, position, after⟩

theorem Covers.parts (covers : Covers text slots P R)
    (move : ∀ s t, s.Within text slots → R s t → s.Moves text slots t) (k : Nat) :
    Covers text slots (Parts P k) (Rounds R k) := by
  intro w hits s parts hs standing
  induction parts generalizing s with
  | zero => exact ⟨s, .zero s, rfl⟩
  | succ first others ih =>
      obtain ⟨t, taken, within, position, after⟩ := covers.first move first hs standing
      obtain ⟨r, rounds, further⟩ := ih t within after
      refine ⟨r, .succ taken rounds, ?_⟩
      rw [further, position, List.length_append, Nat.add_assoc]

end

namespace Node

theorem covers_each {ns : List Node}
    (each : ∀ n ∈ ns, Covers text slots (n.Derives slack none) (n.Leads text)) :
    Covers text slots (DerivesEach slack none ns) (LeadsAfter text ns) := by
  intro w hits s derived hs standing
  induction ns generalizing w hits s with
  | nil =>
      obtain ⟨rfl, -⟩ := derived
      exact ⟨s, rfl, rfl⟩
  | cons n rest ih =>
      obtain ⟨hn, hrest⟩ := List.forall_mem_cons.1 each
      obtain ⟨u, v, i, j, rfl, -, first, others⟩ := derived
      obtain ⟨t, taken, within, position, after⟩ :=
        hn.first (fun _ _ hs h => h.moves hs) first hs standing
      obtain ⟨r, through, further⟩ := ih hrest v j t others within after
      refine ⟨r, ⟨t, taken, through⟩, ?_⟩
      rw [further, position, List.length_append, Nat.add_assoc]

theorem covers {n : Node} (good : ∀ m ∈ n.nodes, m.Fits slots ∧ m.referred? = none) :
    Covers text slots (n.Derives slack none) (n.Leads text) := by
  induction n with
  | text tag chars =>
      rintro w hits s ⟨rfl, -⟩ hs standing
      exact ⟨_, ⟨standing, rfl⟩, rfl⟩
  | set tag members =>
      rintro w hits s ⟨c, rfl, -, contains, -⟩ hs standing
      exact ⟨_, ⟨c, contains, standing, rfl⟩, rfl⟩
  | rep tag quantifier body ih =>
      obtain ⟨-, below⟩ := forall_mem_nodes.1 good
      have body_covers := ih (below body (List.mem_singleton_self body))
      have move (s t : MatchState) (hs : s.Within text slots) (h : body.Leads text s t) :
          s.Moves text slots t := h.moves hs
      rintro w hits s ⟨count, inner, spelled, ⟨allowed, -⟩, -⟩ hs standing
      simp only [Leads]
      cases same : quantifier.same with
      | false =>
          rw [same] at spelled
          obtain ⟨t, rounds, position⟩ :=
            body_covers.parts move count w inner s spelled hs standing
          exact ⟨t, ⟨count, allowed, rounds⟩, position⟩
      | true =>
          rw [same] at spelled
          cases spelled with
          | zero => exact ⟨s, .inl ⟨allowed, rfl⟩, rfl⟩
          | @succ k u _ unit =>
              rw [List.replicate_succ, List.flatten_cons] at standing ⊢
              obtain ⟨t, lead, -, position, after⟩ := body_covers.first move unit hs standing
              have spelled : text.extract s.position t.position = u := by
                rw [List.extract_eq_take_drop, position, Nat.add_sub_cancel_left]
                have first := (append_isPrefix_iff.1 standing).1
                exact (List.prefix_iff_eq_take.1 first).symm
              have copies : Reads text
                  (List.replicate k (text.extract s.position t.position)).flatten t
                  (t.advance (List.replicate k u).flatten.length) := by
                rw [spelled]
                exact ⟨after, rfl⟩
              refine ⟨_, .inr ⟨k, t, allowed, lead, copies⟩, ?_⟩
              rw [List.length_append, ← Nat.add_assoc, ← position]
              rfl
  | seq tag children ih =>
      obtain ⟨-, below⟩ := forall_mem_nodes.1 good
      exact covers_each fun n hn => ih n hn (below n hn)
  | alt tag children ih =>
      obtain ⟨-, below⟩ := forall_mem_nodes.1 good
      intro w hits s derived hs standing
      obtain ⟨n, hn, derived⟩ := derivesAmong_iff.1 derived
      obtain ⟨t, lead, position⟩ := ih n hn (below n hn) w hits s derived hs standing
      exact ⟨t, leadsAmong_iff.2 ⟨n, hn, lead⟩, position⟩
  | group tag body ih =>
      obtain ⟨-, below⟩ := forall_mem_nodes.1 good
      exact ih (below body (List.mem_singleton_self body))
  | capture tag index name body ih =>
      obtain ⟨⟨own, -⟩, below⟩ := forall_mem_nodes.1 good
      have body_covers := ih (below body (List.mem_singleton_self body))
      intro w hits s derived hs standing
      obtain ⟨t, lead, position⟩ := body_covers w hits s derived hs standing
      have slot : index < t.captures.length := (lead.moves hs).within.slots ▸ own.slot index rfl
      exact ⟨_, ⟨t, lead, slot, rfl⟩, position⟩
  | backref tag target index body _ =>
      obtain ⟨-, plain⟩ := good _ (self_mem_nodes _)
      cases plain

end Node

namespace Pattern

theorem WellFormed.isMatch_of_conforming {p : Pattern} (hp : p.WellFormed)
    (plain : ∀ n ∈ p.root.nodes, n.referred? = none) {random : Source} {w : List Char}
    (generated : (((Generator.conforming slack).generate p.root).run.run random).1 = .ok w) :
    p.isMatch w = true := by
  have owned := Node.self_mem_nodes p.root
  have spells := (Generator.steers_conforming slack p.root).spells hp owned
  obtain ⟨hits, derived, -⟩ := spells.of_ok generated
  have good : ∀ n ∈ p.root.nodes, n.Fits (p.captureCount + 1) ∧ n.referred? = none :=
    fun n hn => ⟨hp.fits hn, plain n hn⟩
  obtain ⟨t, lead, position⟩ := Node.covers good w hits _ derived
    (MatchState.within_start w p.captureCount) List.prefix_rfl
  exact hp.isMatch_iff.2 ⟨t, lead, by simpa [MatchState.start] using position⟩

end Pattern

end PatternSampler
