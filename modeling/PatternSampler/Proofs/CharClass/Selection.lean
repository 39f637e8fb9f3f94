import PatternSampler.Proofs.CharClass.Count

/-!
# What can be drawn

A class and its complement share out the code points of their alphabet, and each selects as
many of them as it counts.  So a draw comes to nothing only if the class has nothing to
select from, and a class that is not full has a complement to draw from.
-/

namespace PatternSampler

namespace Alphabet

theorem mem_codePoints {a : Alphabet} {cp : Nat} : cp ∈ a.codePoints ↔ a.Holds cp := by
  refine ⟨fun listed => ?_, Holds.mem_codePoints⟩
  cases a with
  | ascii => exact holds_ascii.2 (Nat.le_of_lt_succ (List.mem_range.1 listed))
  | bmp =>
      simp only [codePoints, List.mem_append, List.mem_range, List.mem_range'_1, firstSurrogate,
        lastSurrogate, max] at listed
      simp only [Holds, IsSurrogate, firstSurrogate, lastSurrogate, max]
      omega

theorem nodup_codePoints (a : Alphabet) : a.codePoints.Nodup := by
  cases a with
  | ascii => exact List.nodup_range
  | bmp =>
      refine List.nodup_append.2 ⟨List.nodup_range, List.nodup_range', ?_⟩
      simp only [List.mem_range, List.mem_range'_1, firstSurrogate, lastSurrogate]
      omega

theorem Holds.exists_char {a : Alphabet} {cp : Nat} (h : a.Holds cp) :
    ∃ ch, charOf? cp = some ch ∧ ch.toNat = cp := by
  have valid : cp.isValidChar := by
    obtain ⟨le, notSurrogate⟩ := h.bmp
    simp only [IsSurrogate, firstSurrogate, lastSurrogate, max] at le notSurrogate
    simp only [Nat.isValidChar]
    omega
  have found : charOf? cp = some (Char.ofNat cp) := by
    rw [charOf?, if_pos valid]
  exact ⟨_, found, toNat_of_charOf? found⟩

end Alphabet

namespace CharClass

variable {c : CharClass}

theorem separated_selection (hc : c.WellFormed) : c.selection.Separated := by
  unfold selection
  split
  · exact separated_cutSurrogates _ (hc.apart.complementWithin _)
  · exact hc.apart

theorem perm_codePoints (hc : c.WellFormed) :
    (c.selection.elements ++ c.complement.selection.elements).Perm c.alphabet.codePoints := by
  have shared (cp : Nat) : cp ∈ c.complement.selection ↔
      c.alphabet.Holds cp ∧ c.lists cp = c.negated := by
    rw [mem_selection hc.complement]
    refine and_congr_right fun _ => ?_
    change c.lists cp ≠ !c.negated ↔ _
    cases c.lists cp <;> cases c.negated <;> decide
  have distinct : (c.selection.elements ++ c.complement.selection.elements).Nodup := by
    refine List.nodup_append.2 ⟨(separated_selection hc).nodup_elements,
      (separated_selection hc.complement).nodup_elements, ?_⟩
    rintro n selected m left rfl
    rw [IntervalSet.mem_elements] at selected left
    exact ((mem_selection hc).1 selected).2 ((shared n).1 left).2
  refine (List.perm_ext_iff_of_nodup distinct c.alphabet.nodup_codePoints).2 fun cp => ?_
  rw [List.mem_append, IntervalSet.mem_elements, IntervalSet.mem_elements, mem_selection hc,
    shared, Alphabet.mem_codePoints, ← and_or_left]
  exact and_iff_left (ne_or_eq _ _)

theorem size_selection_add (hc : c.WellFormed) :
    c.selection.size + c.complement.selection.size = c.alphabet.size := by
  have length := (perm_codePoints hc).length_eq
  rwa [List.length_append, IntervalSet.length_elements, IntervalSet.length_elements,
    Alphabet.length_codePoints] at length

theorem selectable_eq (hc : c.WellFormed) : c.selectable =
    if c.negated then c.alphabet.size - c.members.size else c.members.size :=
  (congrArg selectable hc.upToDate).symm

theorem size_selection (hc : c.WellFormed) : c.selection.size = c.selectable := by
  cases negated : c.negated with
  | false => simp [selection, selectable_eq hc, negated]
  | true =>
      have left : c.complement.selection = c.members := by
        simp [selection, complement, negated]
      have whole := size_selection_add hc
      rw [left] at whole
      rw [selectable_eq hc, negated, if_pos rfl]
      omega

theorem selectable_add (hc : c.WellFormed) :
    c.selectable + c.complement.selectable = c.alphabet.size := by
  rw [← size_selection hc, ← size_selection hc.complement]
  exact size_selection_add hc

theorem exists_nth? (hc : c.WellFormed) {n : Nat} (h : n < c.selectable) :
    ∃ ch, c.nth? n = some ch := by
  rw [← size_selection hc] at h
  obtain ⟨cp, found⟩ := IntervalSet.exists_nth?_iff_lt.2 h
  have held := ((mem_selection hc).1 (IntervalSet.mem_of_nth? found)).1
  obtain ⟨ch, same, -⟩ := held.exists_char
  exact ⟨ch, by rw [nth?, found, Option.bind_some, same]⟩

theorem selectable_eq_zero_iff (hc : c.WellFormed) :
    c.selectable = 0 ↔ ∀ ch : Char, c.alphabet.Holds ch.toNat → c.contains ch = false := by
  have accepted (ch : Char) (held : c.alphabet.Holds ch.toNat) :
      ch.toNat ∈ c.selection ↔ c.contains ch = true := by
    rw [mem_selection hc, contains, bne_iff_ne]
    exact and_iff_right held
  rw [← size_selection hc, ← IntervalSet.length_elements, List.length_eq_zero_iff,
    List.eq_nil_iff_forall_not_mem]
  simp only [IntervalSet.mem_elements]
  constructor
  · intro none ch held
    exact Bool.eq_false_iff.2 fun contained => none _ ((accepted ch held).2 contained)
  · intro rejected cp selected
    have held := ((mem_selection hc).1 selected).1
    obtain ⟨ch, -, rfl⟩ := held.exists_char
    exact absurd ((accepted ch held).1 selected) (by simp [rejected ch held])

theorem isFull_iff (hc : c.WellFormed) :
    c.isFull = true ↔ ∀ ch : Char, c.alphabet.Holds ch.toNat → c.contains ch = true := by
  have whole := selectable_add hc
  have empty := selectable_eq_zero_iff hc.complement
  simp only [contains_complement, Bool.not_eq_false'] at empty
  rw [isFull, beq_iff_eq]
  exact Iff.trans ⟨fun _ => by omega, fun _ => by omega⟩ empty

theorem selectable_complement_pos (hc : c.WellFormed) (lacks : c.isFull = false) :
    0 < c.complement.selectable := by
  have whole := selectable_add hc
  have notFull : c.selectable ≠ c.alphabet.size := by simpa [isFull] using lacks
  omega

/-- Something can be drawn from the class, and whatever is drawn has the property. -/
structure Yields (c : CharClass) (Q : Char → Prop) : Prop where
  nonempty : 0 < c.selectable
  each : ∀ n < c.selectable, ∃ ch, c.nth? n = some ch ∧ Q ch

theorem yields_complement (hc : c.WellFormed) (lacks : c.isFull = false) :
    c.complement.Yields fun ch => c.contains ch = false where
  nonempty := selectable_complement_pos hc lacks
  each n h := by
    obtain ⟨ch, found⟩ := exists_nth? hc.complement h
    have contained := (of_nth? hc.complement found).2
    rw [contains_complement, Bool.not_eq_true'] at contained
    exact ⟨ch, found, contained⟩

theorem allExcept_eq (ch : Char) :
    allExcept ch = match Alphabet.ofCodePoint? ch.toNat with
      | none => recount ⟨.bmp, true, ∅, false, 0⟩
      | some a =>
          let single : Span := ⟨ch.toNat, ch.toNat, Nat.le_refl _⟩
          recount ⟨a, true, cutSurrogates a (IntervalSet.insert ∅ single), false, 0⟩ := by
  have grown (a : Alphabet) : (ofPolarity true).grow a = recount ⟨a, true, ∅, false, 0⟩ := by
    cases a <;> rfl
  have single : Span.ofBounds? ch.toNat ch.toNat = some ⟨ch.toNat, ch.toNat, Nat.le_refl _⟩ :=
    dif_pos (Nat.le_refl _)
  cases h : Alphabet.ofCodePoint? ch.toNat with
  | none => simp only [allExcept_eq_insert, insert, insertRange_eq, single, h, grown]
  | some a => simp only [allExcept_eq_insert, insert, insertRange_eq, single, h, grown]; rfl

theorem contains_of_not_mem {ch : Char} (negated : c.negated = true) (beyond : c.beyond = false)
    (unlisted : ch.toNat ∉ c.members) : c.contains ch = true := by
  have listed : c.members.contains ch.toNat = false := by
    rwa [← Bool.not_eq_true, IntervalSet.contains_iff]
  simp [contains, lists, listed, negated, beyond]

theorem contains_allExcept {ch other : Char} (apart : other ≠ ch) :
    (allExcept ch).contains other = true := by
  have unlisted : other.toNat ∉ IntervalSet.insert ∅ ⟨ch.toNat, ch.toNat, Nat.le_refl _⟩ := by
    simp only [IntervalSet.mem_insert, IntervalSet.not_mem_empty, or_false, Span.mem_def]
    intro within
    exact apart (Char.toNat_inj.1 (Nat.le_antisymm within.2 within.1))
  rw [allExcept_eq]
  split
  · exact contains_of_not_mem rfl rfl (IntervalSet.not_mem_empty _)
  · exact contains_of_not_mem rfl rfl fun listed => unlisted (mem_cutSurrogates.1 listed).1

theorem yields_allExcept (ch : Char) : (allExcept ch).Yields (· ≠ ch) where
  nonempty := by
    have letter (other : Char) (ascii : other.toNat ≤ Alphabet.ascii.max) (apart : other ≠ ch) :
        (allExcept ch).selectable ≠ 0 := by
      have contained := contains_allExcept apart
      have held : (allExcept ch).alphabet.Holds other.toNat := by
        have small : Alphabet.ascii.Holds other.toNat := Alphabet.holds_ascii.2 ascii
        cases (allExcept ch).alphabet with
        | ascii => exact small
        | bmp => exact small.bmp
      rw [Ne, selectable_eq_zero_iff (wellFormed_allExcept ch)]
      intro rejected
      simp [rejected other held] at contained
    by_cases same : ch = 'a'
    · exact Nat.pos_of_ne_zero (letter 'b' (by decide) (by simp [same]))
    · exact Nat.pos_of_ne_zero (letter 'a' (by decide) (Ne.symm same))
  each n h := by
    obtain ⟨other, found⟩ := exists_nth? (wellFormed_allExcept ch) h
    obtain ⟨held, contained⟩ := of_nth? (wellFormed_allExcept ch) found
    exact ⟨other, found, ne_of_contains_allExcept held contained⟩

end CharClass

end PatternSampler
