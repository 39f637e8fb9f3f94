/-!
# Loops

A loop has no bound of its own: it makes one pass after another until one is the last.  If every
other pass makes some number smaller, that number bounds the passes.
-/

namespace PatternSampler

structure Loop (σ : Type) where
  /-- Whether the loop is left in the pass that begins with a state. -/
  isLast : σ → Bool
  /-- What the next pass begins with. -/
  onward : σ → σ

namespace Loop

variable {σ : Type} {loop : Loop σ} {passes : Nat} {s t last : σ}

/-- From `s` on the loop makes so many passes, of which the last one begins with `last`. -/
inductive LeavesIn (loop : Loop σ) : (passes : Nat) → (s last : σ) → Prop
  | leave {s : σ} (left : loop.isLast s = true) : LeavesIn loop 1 s s
  | pass {passes : Nat} {s last : σ} (goes : loop.isLast s = false)
      (others : LeavesIn loop passes (loop.onward s) last) : LeavesIn loop (passes + 1) s last

/-- A pass of the loop that is entered with `s` begins with `t`. -/
inductive Visits (loop : Loop σ) (s : σ) : σ → Prop
  | start : Visits loop s s
  | next {t : σ} (before : Visits loop s t) (goes : loop.isLast t = false) :
      Visits loop s (loop.onward t)

theorem Visits.keeps {P : σ → Prop}
    (step : ∀ t, P t → loop.isLast t = false → P (loop.onward t)) (h : loop.Visits s t)
    (hs : P s) : P t := by
  induction h with
  | start => exact hs
  | next before goes ih => exact step _ ih goes

theorem Visits.before (h : loop.Visits (loop.onward s) t) (goes : loop.isLast s = false) :
    loop.Visits s t := by
  induction h with
  | start => exact .next .start goes
  | next _ further ih => exact .next ih further

theorem visits_iff :
    loop.Visits s t ↔ t = s ∨ loop.isLast s = false ∧ loop.Visits (loop.onward s) t := by
  constructor
  · intro h
    induction h with
    | start => exact .inl rfl
    | next before goes ih =>
        rcases ih with rfl | ⟨first, others⟩
        · exact .inr ⟨goes, .start⟩
        · exact .inr ⟨first, .next others goes⟩
  · rintro (rfl | ⟨goes, others⟩)
    · exact .start
    · exact others.before goes

theorem exists_visits_iff {P : σ → Prop} : (∃ t, loop.Visits s t ∧ P t) ↔
    P s ∨ loop.isLast s = false ∧ ∃ t, loop.Visits (loop.onward s) t ∧ P t := by
  constructor
  · rintro ⟨t, visited, ht⟩
    rcases visits_iff.1 visited with rfl | ⟨goes, others⟩
    · exact .inl ht
    · exact .inr ⟨goes, t, others, ht⟩
  · rintro (hs | ⟨goes, t, others, ht⟩)
    · exact ⟨s, .start, hs⟩
    · exact ⟨t, others.before goes, ht⟩

theorem exists_leavesIn {P : σ → Prop} (measure : σ → Nat)
    (step : ∀ t, P t → loop.isLast t = false →
      P (loop.onward t) ∧ measure (loop.onward t) < measure t) (hs : P s) :
    ∃ passes last, loop.LeavesIn passes s last ∧ passes ≤ measure s + 1 := by
  induction bound : measure s using Nat.strongRecOn generalizing s with
  | ind bound ih =>
      subst bound
      cases goes : loop.isLast s with
      | true => exact ⟨1, s, .leave goes, by omega⟩
      | false =>
          obtain ⟨kept, less⟩ := step s hs goes
          obtain ⟨passes, last, others, le⟩ := ih _ less kept rfl
          exact ⟨passes + 1, last, .pass goes others, by omega⟩

end Loop

end PatternSampler
