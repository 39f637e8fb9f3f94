import Mathlib.Data.Set.Basic
import PatternSampler.Proofs.IntervalSet.Splice

/-!
# Sets of words and their histories

A set of words comes from the empty one by insertions, removals, unions and complements.  Set
algebra says what such a history means, whatever the words are.  The spans of its result are
maximal and spell out exactly that set, and no operation on the way leaves the words.
-/

namespace PatternSampler

def wordSpan (lo hi : UInt32) (ordered : lo ≤ hi) : Span :=
  ⟨lo.toNat, hi.toNat, UInt32.le_iff_toNat_le.1 ordered⟩

theorem toNat_mem_wordSpan {n lo hi : UInt32} {ordered : lo ≤ hi} :
    n.toNat ∈ wordSpan lo hi ordered ↔ lo ≤ n ∧ n ≤ hi := by
  simp [Span.mem_def, wordSpan, UInt32.le_iff_toNat_le]

theorem toNat_le_maxWord (n : UInt32) : n.toNat ≤ maxWord :=
  Nat.le_of_lt_succ n.toNat_lt

namespace IntervalSet

variable {s t : IntervalSet} {bound : Nat}

theorem forall_hi_le_iff : (∀ u ∈ s.spans, u.hi ≤ bound) ↔ ∀ n ∈ s, n ≤ bound := by
  constructor
  · rintro ends n ⟨u, hu, within⟩
    exact Nat.le_trans within.2 (ends u hu)
  · intro all u hu
    exact all u.hi ⟨u, hu, u.ordered, Nat.le_refl _⟩

/-- The spans are maximal and hold words only. -/
structure OfWords (s : IntervalSet) : Prop where
  apart : s.Separated
  words : ∀ n ∈ s, n ≤ maxWord

namespace OfWords

theorem empty : OfWords ∅ := ⟨separated_empty, by simp⟩

theorem insert (hs : s.OfWords) {u : Span} (word : u.hi ≤ maxWord) : (s.insert u).OfWords where
  apart := hs.apart.insert u
  words n h := by
    rcases mem_insert.1 h with inserted | listed
    · exact Nat.le_trans inserted.2 word
    · exact hs.words n listed

theorem remove (hs : s.OfWords) (cut : Span) : (s.remove cut).OfWords where
  apart := hs.apart.remove cut
  words n h := hs.words n (mem_remove.1 h).1

theorem union (hs : s.OfWords) (ht : t.OfWords) : (s ∪ t).OfWords where
  apart := hs.apart.union t
  words n h := (mem_union.1 h).elim (hs.words n) (ht.words n)

theorem complementWithin (hs : s.OfWords) {max : Nat} (word : max ≤ maxWord) :
    (s.complementWithin max).OfWords where
  apart := hs.apart.complementWithin max
  words _ h := Nat.le_trans ((mem_complementWithin hs.apart).1 h).1 word

end OfWords

/-- How a set of words has come about. -/
inductive History
  | new
  | insert (before : History) (lo hi : UInt32) (ordered : lo ≤ hi)
  | remove (before : History) (lo hi : UInt32) (ordered : lo ≤ hi)
  | union (before other : History)
  | complementWithin (before : History) (max : UInt32)

namespace History

def result : History → IntervalSet
  | new => ∅
  | insert before lo hi ordered => before.result.insert (wordSpan lo hi ordered)
  | remove before lo hi ordered => before.result.remove (wordSpan lo hi ordered)
  | union before other => before.result ∪ other.result
  | complementWithin before max => before.result.complementWithin max.toNat

def meaning : History → Set UInt32
  | new => ∅
  | insert before lo hi _ => before.meaning ∪ {n | lo ≤ n ∧ n ≤ hi}
  | remove before lo hi _ => before.meaning \ {n | lo ≤ n ∧ n ≤ hi}
  | union before other => before.meaning ∪ other.meaning
  | complementWithin before max => {n | n ≤ max} \ before.meaning

theorem ofWords_result (h : History) : h.result.OfWords := by
  induction h with
  | new => exact .empty
  | insert before lo hi ordered ih => exact ih.insert (toNat_le_maxWord hi)
  | remove before lo hi ordered ih => exact ih.remove _
  | union before other ih ihOther => exact ih.union ihOther
  | complementWithin before max ih => exact ih.complementWithin (toNat_le_maxWord max)

theorem toNat_mem_result (h : History) (n : UInt32) : n.toNat ∈ h.result ↔ n ∈ h.meaning := by
  induction h with
  | new => simp [result, meaning]
  | insert before lo hi ordered ih =>
      simp [result, meaning, toNat_mem_wordSpan, ih, or_comm]
  | remove before lo hi ordered ih =>
      simp [result, meaning, toNat_mem_wordSpan, ih]
  | union before other ih ihOther => simp [result, meaning, ih, ihOther]
  | complementWithin before max ih =>
      have apart := before.ofWords_result.apart
      simp [result, meaning, mem_complementWithin apart, UInt32.le_iff_toNat_le, ih]

/-- Whatever the operations and the words are: the spans at the end are in order with something
missing between any two of them, end at words, and spell out the set that the operations stand
for.  One more insertion is the splice between the two places that are searched for. -/
theorem result_exact (h : History) :
    h.result.spans.Pairwise (fun s t => s.hi + 1 < t.lo) ∧
    (∀ s ∈ h.result.spans, s.lo ≤ s.hi ∧ s.hi < UInt32.size) ∧
    (∀ n : UInt32, n.toNat ∈ h.result ↔ n ∈ h.meaning) ∧
    ∀ lo hi ordered, (insert h lo hi ordered).result.spans =
      splice (wordSpan lo hi ordered) h.result.spans := by
  have ofWords := h.ofWords_result
  have ends := forall_hi_le_iff.2 ofWords.words
  refine ⟨ofWords.apart, fun s hs => ⟨s.ordered, Nat.lt_succ_of_le (ends s hs)⟩,
    h.toNat_mem_result, fun lo hi ordered => ?_⟩
  exact insertInto_eq_splice ofWords.apart ends (toNat_le_maxWord hi)

end History

end IntervalSet

end PatternSampler
