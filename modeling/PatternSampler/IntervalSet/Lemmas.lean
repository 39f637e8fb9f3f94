import PatternSampler.IntervalSet.Basic

/-!
# Interval sets as sets

Every operation on interval sets does to their elements what its name says, and
keeps the gaps between the spans.
-/

namespace PatternSampler

namespace Span

theorem mem_def {n : Nat} {s : Span} : n ∈ s ↔ s.lo ≤ n ∧ n ≤ s.hi := Iff.rfl

@[simp] theorem contains_iff {n : Nat} {s : Span} : s.contains n = true ↔ n ∈ s := by
  simp [contains, mem_def]

theorem exists_mem_cons {n : Nat} {s : Span} {rest : List Span} :
    (∃ t ∈ s :: rest, n ∈ t) ↔ n ∈ s ∨ ∃ t ∈ rest, n ∈ t := by
  simp

theorem exists_mem_ofBounds? {n lo hi : Nat} :
    (∃ s ∈ (ofBounds? lo hi).toList, n ∈ s) ↔ lo ≤ n ∧ n ≤ hi := by
  unfold ofBounds?
  split <;> simp [mem_def]
  omega

theorem exists_mem_without {n : Nat} {s cut : Span} :
    (∃ t ∈ s.without cut, n ∈ t) ↔ n ∈ s ∧ n ∉ cut := by
  have := s.ordered
  have := cut.ordered
  unfold without
  split <;> try split <;> try split
  all_goals simp [mem_def]
  all_goals omega

end Span

namespace IntervalSet

theorem mem_def {n : Nat} {s : IntervalSet} : n ∈ s ↔ ∃ t ∈ s.spans, n ∈ t := Iff.rfl

@[simp] theorem not_mem_empty (n : Nat) : n ∉ (∅ : IntervalSet) := by
  simp [mem_def, EmptyCollection.emptyCollection, empty]

@[simp] theorem contains_iff {n : Nat} {s : IntervalSet} : s.contains n = true ↔ n ∈ s := by
  simp [contains, mem_def]

theorem exists_mem_insertInto {n : Nat} (s : Span) (spans : List Span) :
    (∃ t ∈ insertInto s spans, n ∈ t) ↔ n ∈ s ∨ ∃ t ∈ spans, n ∈ t := by
  induction spans generalizing s with
  | nil => simp [insertInto]
  | cons t rest ih =>
      unfold insertInto
      split
      · simp
      · split
        · simp only [Span.exists_mem_cons, ih]
          exact or_left_comm
        · have := s.ordered
          have := t.ordered
          have hull : n ∈ s.hull t ↔ n ∈ s ∨ n ∈ t := by
            simp only [Span.mem_def, Span.hull]
            omega
          simp only [Span.exists_mem_cons, ih, hull, or_assoc]

@[simp] theorem mem_insert {n : Nat} {s : IntervalSet} {t : Span} :
    n ∈ s.insert t ↔ n ∈ t ∨ n ∈ s :=
  exists_mem_insertInto t s.spans

@[simp] theorem mem_remove {n : Nat} {s : IntervalSet} {cut : Span} :
    n ∈ s.remove cut ↔ n ∈ s ∧ n ∉ cut := by
  simp only [mem_def, remove, List.mem_flatMap]
  constructor
  · rintro ⟨t, ⟨u, hu, ht⟩, hn⟩
    have := Span.exists_mem_without.1 ⟨t, ht, hn⟩
    exact ⟨⟨u, hu, this.1⟩, this.2⟩
  · rintro ⟨⟨u, hu, hn⟩, hcut⟩
    obtain ⟨t, ht, hn⟩ := Span.exists_mem_without.2 ⟨hn, hcut⟩
    exact ⟨t, ⟨u, hu, ht⟩, hn⟩

@[simp] theorem mem_union {n : Nat} {s t : IntervalSet} : n ∈ s ∪ t ↔ n ∈ s ∨ n ∈ t := by
  change n ∈ t.spans.foldl insert s ↔ _
  rw [mem_def (s := t)]
  induction t.spans generalizing s with
  | nil => simp
  | cons u rest ih =>
      simp only [List.foldl_cons, ih, mem_insert, Span.exists_mem_cons]
      rw [or_assoc, or_left_comm]

theorem separated_empty : (∅ : IntervalSet).Separated := List.Pairwise.nil

theorem before_insertInto {u s : Span} {spans : List Span} (below : u.Before s)
    (all : ∀ t ∈ spans, u.Before t) : ∀ t ∈ insertInto s spans, u.Before t := by
  induction spans generalizing s with
  | nil => simpa [insertInto]
  | cons t rest ih =>
      simp only [List.forall_mem_cons] at all
      unfold insertInto
      split
      · simpa using ⟨below, all⟩
      · split
        · simpa using ⟨all.1, ih below all.2⟩
        · refine ih ?_ all.2
          simp only [Span.Before, Span.hull] at *
          omega

theorem pairwise_insertInto (s : Span) {spans : List Span} (apart : spans.Pairwise Span.Before) :
    (insertInto s spans).Pairwise Span.Before := by
  induction spans generalizing s with
  | nil => simp [insertInto]
  | cons t rest ih =>
      rw [List.pairwise_cons] at apart
      unfold insertInto
      split
      · rename_i below
        refine List.pairwise_cons.2 ⟨?_, List.pairwise_cons.2 apart⟩
        have := t.ordered
        simp only [List.forall_mem_cons]
        refine ⟨below, fun u hu => ?_⟩
        have := apart.1 u hu
        simp only [Span.Before] at *
        omega
      · split
        · rename_i above
          exact List.pairwise_cons.2 ⟨before_insertInto above apart.1, ih s apart.2⟩
        · exact ih _ apart.2

theorem Separated.insert {s : IntervalSet} (apart : s.Separated) (t : Span) :
    (s.insert t).Separated :=
  pairwise_insertInto t apart

theorem Separated.union {s : IntervalSet} (apart : s.Separated) (t : IntervalSet) :
    (s ∪ t).Separated := by
  change (t.spans.foldl IntervalSet.insert s).Separated
  induction t.spans generalizing s with
  | nil => exact apart
  | cons u rest ih => exact ih (apart.insert u)

end IntervalSet

end PatternSampler
