import PatternSampler.IntervalSet.Lemmas

/-!
# Equal sets are equal lists

Between two spans of a separated list a number is missing.  So the first span begins at the
least element and ends in front of the first number that is missing, and the elements of a
set determine its spans one after another.
-/

namespace PatternSampler.IntervalSet

section

variable {s : Span} {rest : List Span} (apart : (s :: rest).Pairwise Span.Before) {n : Nat}
include apart

theorem lo_le_of_mem_cons (h : ∃ t ∈ s :: rest, n ∈ t) : s.lo ≤ n := by
  rcases Span.exists_mem_cons.1 h with within | ⟨t, ht, within⟩
  · exact within.1
  · have before : s.hi + 1 < t.lo := (List.pairwise_cons.1 apart).1 t ht
    have := s.ordered
    exact Nat.le_trans (by omega) within.1

theorem exists_mem_tail : (∃ t ∈ rest, n ∈ t) ↔ (∃ t ∈ s :: rest, n ∈ t) ∧ s.hi < n := by
  rw [Span.exists_mem_cons]
  constructor
  · rintro ⟨t, ht, within⟩
    have before : s.hi + 1 < t.lo := (List.pairwise_cons.1 apart).1 t ht
    exact ⟨.inr ⟨t, ht, within⟩, Nat.lt_of_lt_of_le (by omega) within.1⟩
  · rintro ⟨within | later, above⟩
    · exact absurd within.2 (Nat.not_le_of_lt above)
    · exact later

theorem not_mem_succ_hi : ¬∃ t ∈ s :: rest, s.hi + 1 ∈ t := by
  intro listed
  obtain ⟨t, ht, within⟩ := (exists_mem_tail apart).2 ⟨listed, Nat.lt_succ_self _⟩
  have before : s.hi + 1 < t.lo := (List.pairwise_cons.1 apart).1 t ht
  exact absurd within.1 (Nat.not_le_of_lt before)

end

theorem hi_le_of_same {s t : Span} {ss ts : List Span} (apart : (s :: ss).Pairwise Span.Before)
    (begins : s.lo = t.lo) (same : ∀ n, (∃ u ∈ t :: ts, n ∈ u) → ∃ u ∈ s :: ss, n ∈ u) :
    t.hi ≤ s.hi := by
  refine Nat.not_lt.1 fun longer => ?_
  have := s.ordered
  have inside : s.hi + 1 ∈ t := ⟨by omega, by omega⟩
  exact not_mem_succ_hi apart (same _ (Span.exists_mem_cons.2 (.inl inside)))

theorem spans_eq_of_same {ss ts : List Span} (hs : ss.Pairwise Span.Before)
    (ht : ts.Pairwise Span.Before) (same : ∀ n, (∃ u ∈ ss, n ∈ u) ↔ ∃ u ∈ ts, n ∈ u) :
    ss = ts := by
  have first (s : Span) (rest : List Span) : ∃ u ∈ s :: rest, s.lo ∈ u :=
    ⟨s, List.mem_cons_self, Nat.le_refl _, s.ordered⟩
  induction ss generalizing ts with
  | nil =>
      cases ts with
      | nil => rfl
      | cons t ts => simpa using (same t.lo).2 (first t ts)
  | cons s ss ih =>
      cases ts with
      | nil => simpa using (same s.lo).1 (first s ss)
      | cons t ts =>
          have begins : s.lo = t.lo := Nat.le_antisymm
            (lo_le_of_mem_cons hs ((same _).2 (first t ts)))
            (lo_le_of_mem_cons ht ((same _).1 (first s ss)))
          have ends : s.hi = t.hi := Nat.le_antisymm
            (hi_le_of_same ht begins.symm fun n => (same n).1)
            (hi_le_of_same hs begins fun n => (same n).2)
          have rest : ss = ts := by
            refine ih hs.tail ht.tail fun n => ?_
            rw [exists_mem_tail hs, exists_mem_tail ht, same, ends]
          cases s
          cases t
          simp_all

theorem Separated.ext {s t : IntervalSet} (hs : s.Separated) (ht : t.Separated)
    (same : ∀ n, n ∈ s ↔ n ∈ t) : s = t := by
  cases s
  cases t
  exact congrArg IntervalSet.mk (spans_eq_of_same hs ht same)

end PatternSampler.IntervalSet
