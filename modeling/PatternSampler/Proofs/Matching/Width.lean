import PatternSampler.Proofs.Matching.Leads

/-!
# Widths

A tree without alternatives and back references, in which every repetition has one count
only, is fixed: all of its matches take the same number of characters.
-/

namespace PatternSampler

theorem Quantifier.allows_iff_eq {q : Quantifier} (fixed : q.max = some q.min) {count : Nat} :
    q.Allows count ↔ count = q.min := by
  simp only [Allows, fixed, Option.some.injEq, forall_eq']
  omega

namespace Node

/-- The node itself leaves open neither what follows nor how often. -/
def Fixed : Node → Prop
  | rep _ quantifier _ => quantifier.max = some quantifier.min
  | alt .. | backref .. => False
  | _ => True

mutual

def width : Node → Nat
  | text _ chars => chars.length
  | set _ _ => 1
  | rep _ quantifier body => quantifier.min * width body
  | seq _ children => widthOfAll children
  | group _ body => width body
  | capture _ _ _ body => width body
  | alt .. | backref .. => 0

def widthOfAll : List Node → Nat
  | [] => 0
  | n :: rest => width n + widthOfAll rest

end

end Node

variable {text : List Char} {slots width : Nat} {s t : MatchState}

theorem Rounds.position_eq {R : MatchState → MatchState → Prop} {k : Nat} (h : Rounds R k s t)
    (move : ∀ s t, s.Within text slots → R s t → s.Moves text slots t)
    (step : ∀ s t, s.Within text slots → R s t → t.position = s.position + width)
    (hs : s.Within text slots) : t.position = s.position + k * width := by
  induction h with
  | zero s => rw [Nat.zero_mul, Nat.add_zero]
  | succ first others ih =>
      rw [ih (move _ _ hs first).within, step _ _ hs first, Nat.succ_mul]
      omega

namespace Node

theorem LeadsAfter.position_eq {ns : List Node} (h : LeadsAfter text ns s t)
    (each : ∀ n ∈ ns, ∀ s t, s.Within text slots → n.Leads text s t →
      t.position = s.position + n.width)
    (hs : s.Within text slots) : t.position = s.position + widthOfAll ns := by
  induction ns generalizing s with
  | nil =>
      cases h
      rfl
  | cons n rest ih =>
      obtain ⟨hn, hrest⟩ := List.forall_mem_cons.1 each
      obtain ⟨u, first, others⟩ := h
      rw [ih others hrest (first.moves hs).within, hn _ _ hs first, widthOfAll, Nat.add_assoc]

theorem Leads.position_eq {n : Node} (h : n.Leads text s t) (fixed : ∀ m ∈ n.nodes, m.Fixed)
    (hs : s.Within text slots) : t.position = s.position + n.width := by
  induction n generalizing s t with
  | text tag chars =>
      obtain ⟨-, rfl⟩ := h
      rfl
  | set tag members =>
      obtain ⟨c, -, -, rfl⟩ := h
      rfl
  | rep tag quantifier body ih =>
      obtain ⟨own, below⟩ := forall_mem_nodes.1 fixed
      have step (s t : MatchState) (hs : s.Within text slots) (h : body.Leads text s t) :
          t.position = s.position + body.width :=
        ih h (below body (List.mem_singleton_self body)) hs
      rw [width, Leads] at *
      split at h
      · obtain ⟨k, allowed, rounds⟩ := h
        rw [← (Quantifier.allows_iff_eq own).1 allowed]
        exact rounds.position_eq (fun s t hs h => h.moves hs) step hs
      · rcases h with ⟨allowed, rfl⟩ | ⟨k, u, allowed, first, -, rfl⟩
        · rw [← (Quantifier.allows_iff_eq own).1 allowed, Nat.zero_mul, Nat.add_zero]
        · have inside := (first.moves hs).within.position
          have taken := step _ _ hs first
          have unit : (text.extract s.position u.position).length = body.width := by
            rw [List.extract_eq_take_drop, List.length_take, List.length_drop]
            omega
          have copies : (List.replicate k (text.extract s.position u.position)).flatten.length =
              k * body.width := by
            rw [List.length_flatten, List.map_replicate, List.sum_replicate_nat, unit]
          change u.position + _ = _
          rw [copies, taken, ← (Quantifier.allows_iff_eq own).1 allowed, Nat.succ_mul]
          omega
  | seq tag children ih =>
      obtain ⟨-, below⟩ := forall_mem_nodes.1 fixed
      exact LeadsAfter.position_eq h (fun n hn s t hs h => ih n hn h (below n hn) hs) hs
  | alt tag children ih => exact (fixed _ (self_mem_nodes _)).elim
  | group tag body ih =>
      obtain ⟨-, below⟩ := forall_mem_nodes.1 fixed
      exact ih h (below body (List.mem_singleton_self body)) hs
  | capture tag index name body ih =>
      obtain ⟨-, below⟩ := forall_mem_nodes.1 fixed
      obtain ⟨u, lead, -, rfl⟩ := h
      have taken : u.position = s.position + body.width :=
        ih lead (below body (List.mem_singleton_self body)) hs
      exact taken
  | backref tag target index body ih => exact (fixed _ (self_mem_nodes _)).elim

end Node

end PatternSampler
