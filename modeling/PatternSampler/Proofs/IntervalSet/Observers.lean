import Mathlib.Data.Set.Card
import PatternSampler.Proofs.IntervalSet.Elements
import PatternSampler.Proofs.IntervalSet.History
import PatternSampler.Proofs.IntervalSet.Search

/-!
# Observers of a set of words

A search by halves, a sum over the spans and a walk along them look at a set in three ways.  All
three see the elements in ascending order: the search finds those that are there, the sum counts
them, and the walk finds each of them at its rank.  Sizes are computed with words, which only the
span of all words is too large for.
-/

namespace PatternSampler

namespace Span

def allWords : Span := ⟨0, maxWord, by decide⟩

/-- The size of a span as it is computed with words. -/
def wordSize (s : Span) : UInt32 := UInt32.ofNat s.hi - UInt32.ofNat s.lo + 1

variable {s : Span}

theorem size_le_maxWord (word : s.hi ≤ maxWord) (part : s ≠ allWords) : s.size ≤ maxWord := by
  have := s.ordered
  rw [size]
  by_contra large
  apply part
  cases s
  simp only [allWords, mk.injEq] at *
  omega

theorem toNat_wordSize (word : s.hi ≤ maxWord) (part : s ≠ allWords) :
    s.wordSize.toNat = s.size := by
  have := s.ordered
  have small := size_le_maxWord word part
  rw [size] at *
  simp only [wordSize, UInt32.toNat_add, UInt32.toNat_sub, UInt32.toNat_ofNat', maxWord,
    UInt32.toNat_one] at *
  omega

end Span

namespace IntervalSet

variable {s : IntervalSet} {n x : Nat}

theorem countP_lt_first {first : Nat} {rest : List Nat} (above : ∀ y ∈ rest, first < y) :
    (first :: rest).countP (· < first) = 0 := by
  rw [List.countP_eq_zero]
  simpa using fun y hy => Nat.le_of_lt (above y hy)

theorem getElem?_eq_some_iff_countP {ns : List Nat} (sorted : ns.Pairwise (· < ·)) :
    ns[n]? = some x ↔ x ∈ ns ∧ ns.countP (· < x) = n := by
  induction ns generalizing n with
  | nil => simp
  | cons first rest ih =>
      obtain ⟨above, sorted⟩ := List.pairwise_cons.1 sorted
      have behind (later : x ∈ rest) :
          (first :: rest).countP (· < x) = rest.countP (· < x) + 1 := by
        simp [above x later]
      cases n with
      | zero =>
          rw [List.getElem?_cons_zero, Option.some.injEq, List.mem_cons]
          constructor
          · rintro rfl
            exact ⟨.inl rfl, countP_lt_first above⟩
          · rintro ⟨rfl | later, count⟩
            · rfl
            · rw [behind later] at count
              omega
      | succ n =>
          rw [List.getElem?_cons_succ, ih sorted, List.mem_cons]
          constructor
          · rintro ⟨later, count⟩
            exact ⟨.inr later, by rw [behind later, count]⟩
          · rintro ⟨rfl | later, count⟩
            · rw [countP_lt_first above] at count
              omega
            · rw [behind later] at count
              exact ⟨later, by omega⟩

theorem encard_below (apart : s.Separated) (x : Nat) :
    {y | y ∈ s ∧ y < x}.encard = s.elements.countP (· < x) := by
  have listed : {y | y ∈ s ∧ y < x} = ((s.elements.filter (· < x)).toFinset : Set Nat) := by
    ext y
    simp
  rw [listed, Set.encard_coe_eq_coe_finsetCard,
    List.toFinset_card_of_nodup (apart.nodup_elements.filter _), List.countP_eq_length_filter]

theorem encard_eq_size (apart : s.Separated) : {x | x ∈ s}.encard = s.size := by
  have listed : {x | x ∈ s} = (s.elements.toFinset : Set Nat) := by
    ext x
    simp
  rw [listed, Set.encard_coe_eq_coe_finsetCard, List.toFinset_card_of_nodup apart.nodup_elements,
    length_elements]

theorem Separated.nth?_eq_some_iff (apart : s.Separated) :
    s.nth? n = some x ↔ x ∈ s ∧ {y | y ∈ s ∧ y < x}.encard = n := by
  rw [nth?_eq, getElem?_eq_some_iff_countP apart.sorted_elements, mem_elements, encard_below apart,
    Nat.cast_inj]

theorem isEmpty_iff_size : s.isEmpty = true ↔ s.size = 0 := by
  rw [isEmpty, size]
  cases s.spans with
  | nil => simp
  | cons t rest => simp [Span.size]

theorem OfWords.size_le (hs : s.OfWords) (part : .allWords ∉ s.spans) : s.size ≤ maxWord := by
  have words : s.elements.toFinset ⊆ Finset.range (maxWord + 1) := by
    intro n listed
    rw [List.mem_toFinset, mem_elements] at listed
    exact Finset.mem_range_succ_iff.2 (hs.words n listed)
  by_contra large
  have every : s.elements.toFinset = Finset.range (maxWord + 1) := by
    apply Finset.eq_of_subset_of_card_le words
    rw [Finset.card_range, List.toFinset_card_of_nodup hs.apart.nodup_elements, length_elements]
    omega
  have whole : s = ⟨[.allWords]⟩ := by
    refine hs.apart.ext (List.pairwise_singleton _ _) fun n => ?_
    rw [← mem_elements, ← List.mem_toFinset, every, Finset.mem_range_succ_iff]
    simp [mem_def, Span.mem_def, Span.allWords]
  exact part (whole ▸ List.mem_singleton_self _)

namespace History

/-- Unless one span holds all words, sizes and elements are words, and the observers of a set
agree: the search finds the numbers that a span covers, the size is how many there are, and the
walk leads to each of them at its rank, to no other number, and upwards. -/
theorem observers_agree (h : History) (part : .allWords ∉ h.result.spans) :
    (∀ t ∈ h.result.spans, t.wordSize.toNat = t.size) ∧ h.result.size ≤ maxWord ∧
    (∀ x, h.result.contains x = true → x ≤ maxWord) ∧
    (∀ x, h.result.search x = h.result.contains x) ∧
    (∀ x, h.result.search x = true ↔ ∃ t ∈ h.result.spans, t.lo ≤ x ∧ x ≤ t.hi) ∧
    {x | h.result.contains x = true}.encard = h.result.size ∧
    (∀ n, (∃ x, h.result.nth? n = some x) ↔ n < h.result.size) ∧
    (∀ m n x y, m < n → h.result.nth? m = some x → h.result.nth? n = some y → x < y) ∧
    (∀ n x, h.result.nth? n = some x ↔ h.result.contains x = true ∧
      {y | h.result.contains y = true ∧ y < x}.encard = n) ∧
    (h.result.isEmpty = true ↔ h.result.size = 0) := by
  have ofWords := h.ofWords_result
  have apart := ofWords.apart
  have ends := forall_hi_le_iff.2 ofWords.words
  simp only [contains_iff]
  refine ⟨fun t ht => ?_, ofWords.size_le part, ofWords.words, fun x => ?_,
    fun x => apart.search_iff, encard_eq_size apart, fun n => exists_nth?_iff_lt,
    fun m n x y => apart.nth?_lt, fun n x => apart.nth?_eq_some_iff, isEmpty_iff_size⟩
  · exact Span.toNat_wordSize (ends t ht) fun whole => part (whole ▸ ht)
  · rw [Bool.eq_iff_iff, apart.search_iff, contains_iff]

/-- All words but one. -/
theorem observers_agree_punctured :
    ∃ h : History, .allWords ∉ h.result.spans ∧ h.result.size = maxWord ∧
      h.result.search 5 = false ∧ h.result.nth? 5 = some 6 ∧
      {y | h.result.contains y = true ∧ y < 6}.encard = 5 := by
  let h : History := .complementWithin (.insert .new 5 5 (by decide)) 0xFFFFFFFF
  have part : .allWords ∉ h.result.spans := by decide
  have sixth : h.result.nth? 5 = some 6 := rfl
  obtain ⟨-, -, -, search, -, -, -, -, rank, -⟩ := observers_agree h part
  exact ⟨h, part, rfl, search 5, sixth, ((rank 5 6).1 sixth).2⟩

end History

end IntervalSet

end PatternSampler
