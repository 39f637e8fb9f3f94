import PatternSampler.Proofs.IntervalSet.Canonical
import PatternSampler.Proofs.IntervalSet.Splice

/-!
# Searching by halves

Only the first span that does not end in front of a number can hold it.  A stretch of spans that
is halved again and again closes in on that one without a look at most of the others.
-/

namespace PatternSampler.IntervalSet

variable {p : Span → Bool} {s : IntervalSet} {n : Nat}

/-- The place between `low` and `high` from which on the property holds no more. -/
def bisect (p : Span → Bool) (spans : List Span) (low high : Nat) : Nat :=
  if low < high then
    let middle := (low + high) / 2
    if spans[middle]?.any p then bisect p spans (middle + 1) high
    else bisect p spans low middle
  else low
termination_by high - low

section

variable {front back : List Span} (held : ∀ t ∈ front, p t = true)
  (missed : ∀ t ∈ back, p t = false)
include held missed

theorem any_getElem?_append (i : Nat) :
    (front ++ back)[i]?.any p = decide (i < front.length) := by
  by_cases early : i < front.length
  · rw [List.getElem?_append_left early, List.getElem?_eq_getElem early]
    simpa [early] using held front[i] (List.getElem_mem early)
  · rw [List.getElem?_append_right (Nat.le_of_not_lt early), decide_eq_false early]
    cases found : back[i - front.length]? with
    | none => rfl
    | some t => exact missed t (List.mem_of_getElem? found)

theorem bisect_append {low high : Nat} (above : low ≤ front.length)
    (below : front.length ≤ high) : bisect p (front ++ back) low high = front.length := by
  fun_induction bisect p (front ++ back) low high with
  | case1 low high wide middle holds ih =>
      rw [any_getElem?_append held missed, decide_eq_true_iff] at holds
      exact ih holds below
  | case2 low high wide middle fails ih =>
      rw [any_getElem?_append held missed, decide_eq_true_iff, Nat.not_lt] at fails
      exact ih above fails
  | case3 low high closed => omega

end

def search (s : IntervalSet) (n : Nat) : Bool :=
  s.spans[bisect (·.hi < n) s.spans 0 s.spans.length]?.any (·.lo ≤ n)

theorem Separated.exists_bisect (apart : s.Separated) (n : Nat) :
    ∃ front back, s.spans = front ++ back ∧ (∀ t ∈ front, t.hi < n) ∧ (∀ t ∈ back, n ≤ t.hi) ∧
      bisect (·.hi < n) s.spans 0 s.spans.length = front.length := by
  obtain ⟨front, back, split, ends, reach⟩ :=
    exists_partition (p := fun t => t.hi < n) apart fun t u before ends => by
      have := u.ordered
      simp only [Span.Before, decide_eq_true_iff] at *
      omega
  refine ⟨front, back, split, by simpa using ends, by simpa using reach, ?_⟩
  rw [split]
  exact bisect_append ends reach (Nat.zero_le _) (by simp)

theorem exists_mem_iff_head {spans : List Span} (apart : spans.Pairwise Span.Before)
    (reach : ∀ t ∈ spans, n ≤ t.hi) :
    (∃ t ∈ spans, n ∈ t) ↔ spans.head?.any (·.lo ≤ n) = true := by
  cases spans with
  | nil => simp
  | cons first rest =>
      simp only [List.head?_cons, Option.any_some, decide_eq_true_iff]
      constructor
      · exact lo_le_of_mem_cons apart
      · intro begins
        exact ⟨first, List.mem_cons_self, begins, reach first List.mem_cons_self⟩

theorem Separated.search_iff (apart : s.Separated) : s.search n = true ↔ n ∈ s := by
  obtain ⟨front, back, split, ends, reach, place⟩ := apart.exists_bisect n
  have behind : s.spans[front.length]? = back.head? := by
    rw [split, List.getElem?_append_right (Nat.le_refl _), Nat.sub_self, List.head?_eq_getElem?]
  have members : n ∈ s ↔ ∃ t ∈ back, n ∈ t := by
    rw [mem_def, split]
    constructor
    · rintro ⟨t, ht, within⟩
      rcases List.mem_append.1 ht with early | ht
      · exact absurd within.2 (Nat.not_le_of_lt (ends t early))
      · exact ⟨t, ht, within⟩
    · rintro ⟨t, ht, within⟩
      exact ⟨t, List.mem_append_right front ht, within⟩
  have later : back.Pairwise Span.Before := by
    rw [Separated, split] at apart
    exact (List.pairwise_append.1 apart).2.1
  rw [search, place, behind, members, exists_mem_iff_head later reach]

end PatternSampler.IntervalSet
