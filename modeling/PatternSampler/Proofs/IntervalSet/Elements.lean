import PatternSampler.Proofs.IntervalSet.Complement

/-!
# Elements one by one

The spans of a set spell out its elements.  Spans that are apart do so in ascending order and
name no element twice, so the size of the set counts them and the element of a number is found
at that place in the list.
-/

namespace PatternSampler

namespace Span

def elements (s : Span) : List Nat := List.range' s.lo s.size

@[simp] theorem mem_elements {n : Nat} {s : Span} : n ∈ s.elements ↔ n ∈ s := by
  have := s.ordered
  simp only [elements, List.mem_range'_1, mem_def, size]
  omega

theorem getElem?_elements (s : Span) (n : Nat) :
    s.elements[n]? = if n < s.size then some (s.lo + n) else none := by
  split
  · rename_i inside
    rw [elements, List.getElem?_range' inside, Nat.one_mul]
  · rename_i outside
    rw [elements, List.getElem?_eq_none (by simpa using outside)]

end Span

namespace IntervalSet

variable {s : IntervalSet} {m n x y : Nat}

def elements (s : IntervalSet) : List Nat := s.spans.flatMap Span.elements

@[simp] theorem mem_elements : n ∈ s.elements ↔ n ∈ s := by
  simp [elements, mem_def]

theorem length_elements (s : IntervalSet) : s.elements.length = s.size := by
  rw [elements, size]
  induction s.spans with
  | nil => rfl
  | cons t rest ih => simp [ih, Span.elements]

theorem Separated.sorted_elements (apart : s.Separated) : s.elements.Pairwise (· < ·) := by
  refine List.pairwise_flatMap.2 ⟨fun t _ => List.pairwise_lt_range', apart.imp ?_⟩
  intro t u before n hn m hm
  rw [Span.mem_elements] at hn hm
  simp only [Span.Before, Span.mem_def] at *
  omega

theorem Separated.nodup_elements (apart : s.Separated) : s.elements.Nodup :=
  apart.sorted_elements.imp Nat.ne_of_lt

theorem nthOf_eq (spans : List Span) (n : Nat) :
    nthOf spans n = (spans.flatMap Span.elements)[n]? := by
  induction spans generalizing n with
  | nil => simp [nthOf]
  | cons s rest ih =>
      have length : s.elements.length = s.size := List.length_range'
      rw [nthOf, List.flatMap_cons, ih]
      split
      · rename_i inside
        rw [List.getElem?_append_left (length.symm ▸ inside), s.getElem?_elements, if_pos inside]
      · rename_i outside
        rw [List.getElem?_append_right (by omega), length]

theorem nth?_eq (s : IntervalSet) (n : Nat) : s.nth? n = s.elements[n]? :=
  nthOf_eq s.spans n

theorem exists_nth?_iff_lt : (∃ x, s.nth? n = some x) ↔ n < s.size := by
  rw [nth?_eq, ← length_elements, ← Option.isSome_iff_exists]
  simp

theorem exists_nth?_iff_mem : (∃ n, s.nth? n = some x) ↔ x ∈ s := by
  simp only [nth?_eq]
  rw [← List.mem_iff_getElem?, mem_elements]

theorem Separated.nth?_lt (apart : s.Separated) (later : m < n) (hx : s.nth? m = some x)
    (hy : s.nth? n = some y) : x < y := by
  simp only [nth?_eq, List.getElem?_eq_some_iff] at hx hy
  obtain ⟨first, rfl⟩ := hx
  obtain ⟨second, rfl⟩ := hy
  exact List.pairwise_iff_getElem.1 apart.sorted_elements m n first second later

end IntervalSet

end PatternSampler
