import PatternSampler.Proofs.Matching.Exact

/-!
# Matching moves forwards

Whatever the node, no state that the matcher lists is behind the one that it began in or outside
the text.  Only the way in which states are made counts for that: they are advanced over
characters that stand in the text, or record a stretch between two of them.
-/

namespace PatternSampler

variable {text : List Char} {slots : Nat} {s t : MatchState}

theorem moves_of_spells {position : Nat} {captures : List (Option (Nat × Nat))} {unit : List Char}
    (hs : MatchState.Within text slots ⟨position, captures⟩)
    (stands : spells text.toArray position unit = true) :
    MatchState.Moves text slots ⟨position, captures⟩ ⟨position + unit.length, captures⟩ :=
  Reads.moves ⟨spells_iff.1 stands, rfl⟩ hs

theorem moves_of_mem_spelled {unit : List Char} (hs : s.Within text slots)
    (ht : t ∈ if spells text.toArray s.position unit then [s.advance unit.length] else []) :
    s.Moves text slots t := by
  split at ht
  · rename_i stands
    cases List.mem_singleton.1 ht
    exact moves_of_spells hs stands
  · simp at ht

theorem moves_of_mem_copyStates {q : Quantifier} {captures : List (Option (Nat × Nat))}
    {unit : List Char} {rounds count position : Nat}
    (hs : MatchState.Within text slots ⟨position, captures⟩)
    (ht : t ∈ copyStates text.toArray q captures unit rounds count position) :
    MatchState.Moves text slots ⟨position, captures⟩ t := by
  induction rounds generalizing count position with
  | zero => simp [copyStates] at ht
  | succ rounds ih =>
      have here (h : t ∈ if q.min ≤ count then [⟨position, captures⟩] else []) :
          MatchState.Moves text slots ⟨position, captures⟩ t := by
        split at h
        · cases List.mem_singleton.1 h
          exact .refl hs
        · simp at h
      rw [copyStates] at ht
      split at ht
      · exact here ht
      · rename_i goes
        simp only [Bool.or_eq_true, not_or, Bool.not_eq_true, Bool.not_eq_false'] at goes
        rcases List.mem_append.1 ht with ht | ht
        · exact here ht
        · have step := moves_of_spells hs goes.2
          exact step.trans (ih step.within ht)

theorem moves_of_mem_equalStates {step : MatchState → List MatchState} {q : Quantifier}
    (hs : s.Within text slots) (move : ∀ u ∈ step s, s.Moves text slots u)
    (ht : t ∈ equalStates text.toArray step q s) : s.Moves text slots t := by
  have unrepeated (h : t ∈ if q.min = 0 then [s] else []) : s.Moves text slots t := by
    split at h
    · cases List.mem_singleton.1 h
      exact .refl hs
    · simp at h
  rw [equalStates] at ht
  split at ht
  · exact unrepeated ht
  · rcases List.mem_append.1 ht with ht | ht
    · exact unrepeated ht
    · obtain ⟨first, hfirst, ht⟩ := List.mem_flatMap.1 ht
      have moved := move first hfirst
      split at ht
      · cases List.mem_singleton.1 ht
        exact moved
      · exact moved.trans (moves_of_mem_copyStates moved.within ht)

namespace Node

theorem moves_of_mem_statesAfter {ns : List Node} {ss : List MatchState}
    (move : ∀ n ∈ ns, ∀ s t, s.Within text slots → t ∈ n.states text.toArray s →
      s.Moves text slots t)
    (all : ∀ u ∈ ss, s.Moves text slots u) (ht : t ∈ statesAfter text.toArray ns ss) :
    s.Moves text slots t := by
  induction ns generalizing ss with
  | nil => exact all t ht
  | cons n rest ih =>
      obtain ⟨hn, hrest⟩ := List.forall_mem_cons.1 move
      refine ih hrest (fun u hu => ?_) ht
      obtain ⟨v, hv, hvu⟩ := List.mem_flatMap.1 (mem_distinct.1 hu)
      exact (all v hv).trans (hn v u (all v hv).within hvu)

theorem moves_of_mem_states {n : Node} (hs : s.Within text slots)
    (ht : t ∈ n.states text.toArray s) : s.Moves text slots t := by
  induction n generalizing s t with
  | text tag chars =>
      rw [states] at ht
      exact moves_of_mem_spelled hs ht
  | set tag members =>
      rw [states] at ht
      split at ht
      · rename_i accepted
        obtain ⟨c, found, -⟩ := (Option.any_eq_true _ _).1 accepted
        have stands : spells text.toArray s.position [c] = true := by simp [spells, found]
        cases List.mem_singleton.1 ht
        exact moves_of_spells hs stands
      · simp at ht
  | rep tag quantifier body ih =>
      rw [states] at ht
      split at ht
      · exact moves_of_mem_equalStates hs (fun u hu => ih hs hu) (mem_distinct.1 ht)
      · obtain ⟨k, -, rounds⟩ := RoundInvariant.start.sound ht
        exact rounds.moves (fun s t hs ht => ih hs ht) hs
  | seq tag children ih =>
      exact moves_of_mem_statesAfter (fun n hn s t hs ht => ih n hn hs ht)
        (by simpa using MatchState.Moves.refl hs) ht
  | alt tag children ih =>
      rw [states, mem_distinct] at ht
      obtain ⟨n, hn, ht⟩ := mem_statesAmong.1 ht
      exact ih n hn hs ht
  | group tag body ih => exact ih hs ht
  | capture tag index name body ih =>
      rw [states, mem_distinct] at ht
      obtain ⟨u, hu, rfl⟩ := List.mem_map.1 ht
      have moved := ih hs hu
      exact ⟨moved.forwards, moved.within.record moved.forwards⟩
  | backref tag target index body _ =>
      rw [states] at ht
      split at ht
      · cases List.mem_singleton.1 ht
        exact .refl hs
      · exact moves_of_mem_spelled hs ht

end Node

end PatternSampler
