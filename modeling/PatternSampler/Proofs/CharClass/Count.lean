import Mathlib.Data.List.Perm.Subperm
import PatternSampler.Proofs.CharClass.WellFormed
import PatternSampler.Proofs.IntervalSet.Elements

/-!
# How many members a class has

The size of an interval set is the number of its elements, because its spans are apart.
So a well-formed class lists at most as many code points as its alphabet holds, and what a
negated class may select is counted without falling below zero.
-/

namespace PatternSampler

namespace Alphabet

def codePoints : Alphabet → List Nat
  | ascii => List.range (ascii.max + 1)
  | bmp => List.range firstSurrogate ++ List.range' (lastSurrogate + 1) (bmp.max - lastSurrogate)

theorem length_codePoints (a : Alphabet) : a.codePoints.length = a.size := by
  cases a with
  | ascii => exact List.length_range
  | bmp => rw [codePoints, List.length_append, List.length_range, List.length_range']; rfl

theorem Holds.mem_codePoints {a : Alphabet} {cp : Nat} (h : a.Holds cp) : cp ∈ a.codePoints := by
  obtain ⟨le, notSurrogate⟩ := h
  cases a with
  | ascii => exact List.mem_range.2 (Nat.lt_succ_of_le le)
  | bmp =>
      simp only [IsSurrogate, firstSurrogate, lastSurrogate, max] at le notSurrogate
      simp only [codePoints, List.mem_append, List.mem_range, List.mem_range'_1, firstSurrogate,
        lastSurrogate, max]
      omega

end Alphabet

namespace CharClass

def Counted (c : CharClass) : Prop := c.members.size ≤ c.alphabet.size

instance (c : CharClass) : Decidable c.Counted :=
  inferInstanceAs (Decidable (c.members.size ≤ c.alphabet.size))

theorem WellFormed.counted {c : CharClass} (hc : c.WellFormed) : c.Counted := by
  have held : c.members.elements ⊆ c.alphabet.codePoints := fun cp listed =>
    (hc.held cp (IntervalSet.mem_elements.1 listed)).mem_codePoints
  rw [Counted, ← IntervalSet.length_elements, ← Alphabet.length_codePoints]
  exact (List.subperm_of_subset hc.apart.nodup_elements held).length_le

end CharClass

end PatternSampler
