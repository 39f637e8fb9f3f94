import PatternSampler.IntervalSet.Lemmas

/-!
# Removal and complement of interval sets

Both keep the gaps between spans.  The complement is read off the gaps in one pass from
the left, so its elements are the right ones only because the spans are in order.
-/

namespace PatternSampler

namespace Span

theorem bounds_of_mem_without {s cut t : Span} (h : t ∈ s.without cut) :
    s.lo ≤ t.lo ∧ t.hi ≤ s.hi := by
  have hs := s.ordered
  unfold without at h
  split at h
  · simp_all
  · rw [List.mem_append] at h
    rcases h with h | h <;> split at h <;> simp at h <;> subst h <;> simp <;> omega

theorem pairwise_without (s cut : Span) : (s.without cut).Pairwise Before := by
  have hcut := cut.ordered
  unfold without
  split
  · simp
  · split <;> split <;> simp [Before]
    omega

theorem lo_of_mem_ofBounds? {lo hi : Nat} {s : Span} (h : s ∈ (ofBounds? lo hi).toList) :
    s.lo = lo := by
  unfold ofBounds? at h
  split at h <;> simp at h
  simp [h]

theorem pairwise_ofBounds? (lo hi : Nat) : (ofBounds? lo hi).toList.Pairwise Before := by
  unfold ofBounds?
  split <;> simp

end Span

namespace IntervalSet

theorem Separated.remove {s : IntervalSet} (apart : s.Separated) (cut : Span) :
    (s.remove cut).Separated := by
  refine List.pairwise_flatMap.2 ⟨fun t _ => t.pairwise_without cut, apart.imp ?_⟩
  intro t u before t' ht u' hu
  have hleft := Span.bounds_of_mem_without ht
  have hright := Span.bounds_of_mem_without hu
  simp only [Span.Before] at *
  omega

private theorem above_of_before {s : Span} {rest : List Span} (before : ∀ t ∈ rest, s.Before t) :
    ∀ t ∈ rest, s.hi + 1 ≤ t.lo := fun t ht => Nat.le_of_lt (before t ht)

theorem lo_of_mem_gaps {g : Span} {next max : Nat} {spans : List Span}
    (apart : spans.Pairwise Span.Before) (above : ∀ t ∈ spans, next ≤ t.lo)
    (h : g ∈ gaps next max spans) : next ≤ g.lo := by
  induction spans generalizing next with
  | nil => exact Nat.le_of_eq (Span.lo_of_mem_ofBounds? h).symm
  | cons s rest ih =>
      obtain ⟨before, apart⟩ := List.pairwise_cons.1 apart
      have hs := s.ordered
      have hnext := above s (by simp)
      unfold gaps at h
      split at h
      · exact Nat.le_of_eq (Span.lo_of_mem_ofBounds? h).symm
      · rw [List.mem_append] at h
        rcases h with h | h
        · split at h <;> simp at h
          simp [h]
        · split at h
          · simp at h
          · have := ih apart (above_of_before before) h
            omega

theorem pairwise_gaps (next max : Nat) {spans : List Span} (apart : spans.Pairwise Span.Before) :
    (gaps next max spans).Pairwise Span.Before := by
  induction spans generalizing next with
  | nil => exact Span.pairwise_ofBounds? next max
  | cons s rest ih =>
      obtain ⟨before, apart⟩ := List.pairwise_cons.1 apart
      have hs := s.ordered
      unfold gaps
      split
      · exact Span.pairwise_ofBounds? next max
      · refine List.pairwise_append.2 ⟨by split <;> simp, ?_, ?_⟩
        · split
          · exact .nil
          · exact ih _ apart
        · intro g hg g' hg'
          split at hg <;> simp at hg
          split at hg'
          · simp at hg'
          · have := lo_of_mem_gaps apart (above_of_before before) hg'
            simp only [hg, Span.Before]
            omega

theorem exists_mem_gaps {n next max : Nat} {spans : List Span}
    (apart : spans.Pairwise Span.Before) (above : ∀ t ∈ spans, next ≤ t.lo) :
    (∃ g ∈ gaps next max spans, n ∈ g) ↔ next ≤ n ∧ n ≤ max ∧ ¬∃ t ∈ spans, n ∈ t := by
  induction spans generalizing next with
  | nil =>
      have bounds : (∃ g ∈ (Span.ofBounds? next max).toList, n ∈ g) ↔ next ≤ n ∧ n ≤ max :=
        Span.exists_mem_ofBounds?
      simpa [gaps] using bounds
  | cons s rest ih =>
      obtain ⟨before, apart⟩ := List.pairwise_cons.1 apart
      have hs := s.ordered
      have hnext := above s (by simp)
      -- A number up to the end of the first span is in none of the spans behind it.
      have far : n ≤ s.hi → ¬∃ t ∈ rest, n ∈ t := by
        rintro hn ⟨t, ht, hmem⟩
        have := before t ht
        simp only [Span.Before, Span.mem_def] at *
        omega
      have gap : (∃ g ∈ if h : next < s.lo then [(⟨next, s.lo - 1, by omega⟩ : Span)] else [],
          n ∈ g) ↔ next ≤ n ∧ n < s.lo := by
        split <;> simp [Span.mem_def] <;> omega
      have later : (∃ g ∈ if max ≤ s.hi then [] else gaps (s.hi + 1) max rest, n ∈ g) ↔
          s.hi < n ∧ n ≤ max ∧ ¬∃ t ∈ rest, n ∈ t := by
        split
        · have : s.hi < n → ¬n ≤ max := by omega
          simp +contextual [this]
        · exact ih apart (above_of_before before)
      unfold gaps
      rw [Span.exists_mem_cons, Span.mem_def]
      split
      · rw [Span.exists_mem_ofBounds?]
        by_cases hrest : ∃ t ∈ rest, n ∈ t
        · simp only [hrest, not_true_eq_false, imp_false, or_true, and_false, iff_false] at far ⊢
          omega
        · simp only [hrest, or_false]
          omega
      · simp only [List.mem_append, or_and_right, exists_or, gap, later]
        by_cases hrest : ∃ t ∈ rest, n ∈ t
        · simp only [hrest, not_true_eq_false, imp_false, or_true, and_false, or_false,
            iff_false] at far ⊢
          omega
        · simp only [hrest, or_false, not_false_eq_true, and_true]
          omega

theorem Separated.complementWithin {s : IntervalSet} (apart : s.Separated) (max : Nat) :
    (s.complementWithin max).Separated :=
  pairwise_gaps 0 max apart

theorem mem_complementWithin {n max : Nat} {s : IntervalSet} (apart : s.Separated) :
    n ∈ s.complementWithin max ↔ n ≤ max ∧ n ∉ s := by
  have above : ∀ t ∈ s.spans, 0 ≤ t.lo := by simp
  rw [mem_def, IntervalSet.complementWithin, exists_mem_gaps apart above]
  simp [mem_def]

theorem mem_of_nthOf {spans : List Span} {n x : Nat} (h : nthOf spans n = some x) :
    ∃ s ∈ spans, x ∈ s := by
  induction spans generalizing n with
  | nil => simp [nthOf] at h
  | cons s rest ih =>
      rw [nthOf] at h
      rw [Span.exists_mem_cons]
      split at h
      · simp only [Option.some.injEq] at h
        have := s.ordered
        simp only [Span.size] at *
        exact .inl ⟨by omega, by omega⟩
      · exact .inr (ih h)

theorem mem_of_nth? {s : IntervalSet} {n x : Nat} (h : s.nth? n = some x) : x ∈ s :=
  mem_of_nthOf h

end IntervalSet

end PatternSampler
