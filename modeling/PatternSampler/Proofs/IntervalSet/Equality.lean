import Mathlib.Order.BooleanAlgebra.Set
import PatternSampler.Proofs.IntervalSet.Canonical
import PatternSampler.Proofs.IntervalSet.History

/-!
# Equal histories

Two histories lead to equal interval sets exactly when they mean the same set of words.  So the
laws of set algebra hold of interval sets as equations, and neither the order of insertions nor
the way in which the inserted ranges are cut can be told from the result.
-/

namespace PatternSampler

structure WordRange where
  lo : UInt32
  hi : UInt32
  ordered : lo ≤ hi

instance : Membership UInt32 WordRange := ⟨fun r n => r.lo ≤ n ∧ n ≤ r.hi⟩

theorem WordRange.mem_def {n : UInt32} {r : WordRange} : n ∈ r ↔ r.lo ≤ n ∧ n ≤ r.hi := Iff.rfl

namespace IntervalSet.History

variable (g h : History)

theorem result_eq_iff_meaning : g.result = h.result ↔ g.meaning = h.meaning := by
  constructor
  · intro equal
    ext n
    rw [← toNat_mem_result, equal, toNat_mem_result]
  · intro equal
    refine g.ofWords_result.apart.ext h.ofWords_result.apart fun n => ?_
    by_cases word : n ≤ maxWord
    · have bound : n < UInt32.size := Nat.lt_succ_of_le word
      rw [← UInt32.toNat_ofNat_of_lt bound, toNat_mem_result, toNat_mem_result, equal]
    · exact ⟨fun listed => absurd (g.ofWords_result.words n listed) word,
        fun listed => absurd (h.ofWords_result.words n listed) word⟩

theorem result_eq_iff_mem :
    g.result = h.result ↔ ∀ n : UInt32, n.toNat ∈ g.result ↔ n.toNat ∈ h.result := by
  simp only [toNat_mem_result]
  exact (result_eq_iff_meaning g h).trans Set.ext_iff

def insertAll (ranges : List WordRange) : History :=
  ranges.foldl (fun before r => before.insert r.lo r.hi r.ordered) h

theorem meaning_insertAll (ranges : List WordRange) :
    (h.insertAll ranges).meaning = h.meaning ∪ {n | ∃ r ∈ ranges, n ∈ r} := by
  induction ranges generalizing h with
  | nil => simp [insertAll]
  | cons r rest ih =>
      have inserted : (h.insert r.lo r.hi r.ordered).meaning = h.meaning ∪ {n | n ∈ r} := rfl
      have first : {n | ∃ s ∈ r :: rest, n ∈ s} = {n | n ∈ r} ∪ {n | ∃ s ∈ rest, n ∈ s} := by
        ext n
        simp
      calc ((h.insert r.lo r.hi r.ordered).insertAll rest).meaning
        _ = h.meaning ∪ {n | n ∈ r} ∪ {n | ∃ s ∈ rest, n ∈ s} := by rw [ih, inserted]
        _ = h.meaning ∪ {n | ∃ s ∈ r :: rest, n ∈ s} := by rw [first, Set.union_assoc]

/-- Equality of interval sets is equality of the sets that their histories mean.  Hence only the
words that the inserted ranges cover matter, unions may be swapped, regrouped and repeated, and a
complement that is taken twice gives the set back if its words lie within the bound. -/
theorem result_eq_iff (g h : History) :
    (g.result = h.result ↔ ∀ n : UInt32, n.toNat ∈ g.result ↔ n.toNat ∈ h.result) ∧
    (g.result = h.result ↔ g.meaning = h.meaning) ∧
    (∀ ranges ranges' : List WordRange,
      (∀ n, (∃ r ∈ ranges, n ∈ r) ↔ ∃ r ∈ ranges', n ∈ r) →
        (h.insertAll ranges).result = (h.insertAll ranges').result) ∧
    (g.union h).result = (h.union g).result ∧
    (∀ k, ((g.union h).union k).result = (g.union (h.union k)).result) ∧
    (g.union g).result = g.result ∧
    ∀ max : UInt32, (∀ n : UInt32, n.toNat ∈ g.result → n ≤ max) →
      ((g.complementWithin max).complementWithin max).result = g.result := by
  refine ⟨result_eq_iff_mem g h, result_eq_iff_meaning g h, ?_, ?_, ?_, ?_, ?_⟩
  · intro ranges ranges' same
    rw [result_eq_iff_meaning, meaning_insertAll, meaning_insertAll]
    exact congrArg (h.meaning ∪ ·) (Set.ext same)
  · rw [result_eq_iff_meaning]
    exact Set.union_comm _ _
  · intro k
    rw [result_eq_iff_meaning]
    exact Set.union_assoc _ _ _
  · rw [result_eq_iff_meaning]
    exact Set.union_self _
  · intro max within
    rw [result_eq_iff_meaning]
    have bounded : g.meaning ⊆ {n | n ≤ max} := fun n hn => within n ((toNat_mem_result g n).2 hn)
    exact Set.sdiff_sdiff_cancel_left bounded

/-- Two ranges, and four pieces of them in another order. -/
theorem result_eq_iff_pieces :
    (insertAll .new [⟨1, 4, by decide⟩, ⟨8, 9, by decide⟩]).result =
        (insertAll .new [⟨9, 9, by decide⟩, ⟨3, 4, by decide⟩, ⟨8, 8, by decide⟩,
          ⟨1, 3, by decide⟩]).result ∧
      (((insert .new 2 5 (by decide)).complementWithin 7).complementWithin 7).result =
        (insert .new 2 5 (by decide)).result := by
  obtain ⟨-, -, inserted, -⟩ := result_eq_iff .new .new
  obtain ⟨-, -, -, -, -, -, complemented⟩ := result_eq_iff (insert .new 2 5 (by decide)) .new
  refine ⟨inserted _ _ fun n => ?_, complemented 7 fun n listed => ?_⟩
  · simp [WordRange.mem_def, UInt32.le_iff_toNat_le]
    omega
  · rw [toNat_mem_result] at listed
    simp [meaning, UInt32.le_iff_toNat_le] at listed ⊢
    omega

end IntervalSet.History

end PatternSampler
