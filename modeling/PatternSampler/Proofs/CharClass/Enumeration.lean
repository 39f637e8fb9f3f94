import PatternSampler.Proofs.CharClass.Reachable

/-!
# Numbered characters

The characters that a class accepts inside its alphabet have the numbers below its count, in
ascending order.  A class and its complement number the characters of one alphabet between
them, and complementing twice leads back to the class with all that it stores.
-/

namespace PatternSampler.CharClass

variable {c : CharClass} {m n : Nat} {ch a b : Char}

theorem nth?_eq_some : c.nth? n = some ch ↔ c.selection.nth? n = some ch.toNat := by
  rw [nth?, Option.bind_eq_some_iff]
  constructor
  · rintro ⟨cp, found, character⟩
    rwa [toNat_of_charOf? character]
  · intro found
    exact ⟨ch.toNat, found, charOf?_toNat ch⟩

def drawable (c : CharClass) : Set Char := {ch | ∃ n, c.nth? n = some ch}

theorem mem_drawable (hc : c.WellFormed) :
    ch ∈ c.drawable ↔ ch.toNat ≤ c.alphabet.max ∧ c.contains ch = true := by
  simp only [drawable, Set.mem_ofPred_eq, nth?_eq_some, IntervalSet.exists_nth?_iff_mem,
    mem_selection hc, holds_toNat, contains, bne_iff_ne]

theorem exists_nth?_iff (hc : c.WellFormed) : (∃ ch, c.nth? n = some ch) ↔ n < c.selectable := by
  constructor
  · rintro ⟨ch, found⟩
    rw [← size_selection hc]
    exact IntervalSet.exists_nth?_iff_lt.1 ⟨_, nth?_eq_some.1 found⟩
  · exact exists_nth? hc

theorem nth?_lt (hc : c.WellFormed) (later : m < n) (first : c.nth? m = some a)
    (second : c.nth? n = some b) : a < b := by
  rw [nth?_eq_some] at first second
  exact (separated_selection hc).nth?_lt later first second

theorem drawable_eq_empty_iff (hc : c.WellFormed) : c.drawable = ∅ ↔ c.selectable = 0 := by
  rw [Set.eq_empty_iff_forall_notMem, selectable_eq_zero_iff hc]
  simp only [mem_drawable hc, not_and, Bool.not_eq_true, holds_toNat]

/-- The numbers below the count of a class belong to the characters that it accepts inside its
alphabet, one after another in ascending order.  Under each of them a code point is found that
is a character. -/
theorem nth?_enumerates (hc : c.Reachable) :
    (∀ n, (∃ ch, c.nth? n = some ch) ↔ n < c.selectable) ∧
    (∀ m n a b, m < n → c.nth? m = some a → c.nth? n = some b → a < b) ∧
    (∀ ch, (∃ n, c.nth? n = some ch) ↔ ch.toNat ≤ c.alphabet.max ∧ c.contains ch = true) ∧
    ∀ n < c.selectable, ∃ cp ch, c.selection.nth? n = some cp ∧ charOf? cp = some ch ∧
      ch.toNat = cp := by
  have wellFormed := hc.wellFormed
  refine ⟨fun n => exists_nth?_iff wellFormed, fun m n a b => nth?_lt wellFormed,
    fun ch => mem_drawable wellFormed, fun n below => ?_⟩
  obtain ⟨ch, found⟩ := exists_nth? wellFormed below
  exact ⟨ch.toNat, ch, nth?_eq_some.1 found, charOf?_toNat ch, rfl⟩

/-- The numbers of a class of the plane leap over what it rejects and over the surrogates. -/
theorem nth?_enumerates_plane : ∃ c : CharClass, c.Reachable ∧ c.negated = true ∧
    c.alphabet = .bmp ∧ c.nth? 0xD7FE = some '\ud7ff' ∧ c.nth? 0xD7FF = some '\ue000' ∧
    '\ud7ff' < '\ue000' ∧ (∃ n, c.nth? n = some '\uffff') ∧ ¬∃ n, c.nth? n = some 'é' := by
  obtain ⟨-, ascending, accepted, -⟩ := nth?_enumerates (.allExcept 'é')
  have last : (allExcept 'é').nth? 0xD7FE = some '\ud7ff' := rfl
  have first : (allExcept 'é').nth? 0xD7FF = some '\ue000' := rfl
  refine ⟨_, .allExcept 'é', rfl, rfl, last, first, ?_, ?_, ?_⟩
  · exact ascending _ _ _ _ (by decide) last first
  · exact (accepted _).2 (by decide)
  · rw [accepted]
    decide

@[simp] theorem alphabet_complement (c : CharClass) : c.complement.alphabet = c.alphabet := rfl

theorem WellFormed.complement_complement (hc : c.WellFormed) : c.complement.complement = c :=
  calc
    c.complement.complement = c.recount := by simp [CharClass.complement, recount]
    _ = c := hc.upToDate

theorem mem_drawable_complement (hc : c.WellFormed) :
    ch ∈ c.complement.drawable ↔ ch.toNat ≤ c.alphabet.max ∧ c.contains ch = false := by
  simp [mem_drawable hc.complement]

theorem drawable_inter (hc : c.WellFormed) : c.drawable ∩ c.complement.drawable = ∅ := by
  rw [Set.eq_empty_iff_forall_notMem]
  rintro ch ⟨drawn, left⟩
  rw [mem_drawable hc] at drawn
  rw [mem_drawable_complement hc] at left
  simp [left.2] at drawn

theorem image_drawable_union (hc : c.WellFormed) :
    Char.toNat '' (c.drawable ∪ c.complement.drawable) =
      {cp | cp ≤ c.alphabet.max ∧ ¬Alphabet.IsSurrogate cp} := by
  have either {ch : Char} :
      ch ∈ c.drawable ∪ c.complement.drawable ↔ ch.toNat ≤ c.alphabet.max := by
    rw [Set.mem_union, mem_drawable hc, mem_drawable_complement hc]
    cases c.contains ch <;> simp
  ext cp
  constructor
  · rintro ⟨ch, numbered, rfl⟩
    exact ⟨either.1 numbered, Alphabet.not_isSurrogate_toNat ch⟩
  · intro held
    obtain ⟨ch, -, rfl⟩ := Alphabet.Holds.exists_char held
    exact ⟨ch, either.2 held.1, rfl⟩

theorem selectable_complement_eq_zero_iff (hc : c.WellFormed) :
    c.complement.selectable = 0 ↔ c.isFull = true := by
  have whole := selectable_add hc
  simp only [isFull, beq_iff_eq]
  omega

/-- Complementing is an exact involution.  It turns every answer of the class around, inside
the alphabet and above it, and shares out the code points of the alphabet between the two. -/
theorem complement_exact (hc : c.Reachable) :
    c.complement.complement = c ∧
    c.complement.alphabet = c.alphabet ∧
    (∀ ch, c.complement.contains ch = true ↔ c.contains ch = false) ∧
    c.drawable ∩ c.complement.drawable = ∅ ∧
    Char.toNat '' (c.drawable ∪ c.complement.drawable) =
      {cp | cp ≤ c.alphabet.max ∧ ¬Alphabet.IsSurrogate cp} ∧
    c.selectable + c.complement.selectable = c.alphabet.size ∧
    (c.complement.selectable = 0 ↔ c.isFull = true) ∧
    (c.complement.drawable = ∅ ↔ c.isFull = true) := by
  have wellFormed := hc.wellFormed
  have full := selectable_complement_eq_zero_iff wellFormed
  refine ⟨wellFormed.complement_complement, rfl, fun ch => by simp, drawable_inter wellFormed,
    image_drawable_union wellFormed, selectable_add wellFormed, full, ?_⟩
  rw [drawable_eq_empty_iff wellFormed.complement, full]

/-- A class that lists everything above its alphabet leaves nothing there to its complement. -/
theorem complement_exact_beyond : ∃ c : CharClass, c.Reachable ∧ c.beyond = true ∧
    c.complement.complement = c ∧ c.complement.contains (Char.ofNat 0x1F600) = false ∧
    c.complement.contains '5' = true ∧ c.complement.selectable = 10 ∧
    c.complement.drawable ≠ ∅ := by
  have reachable : Reachable ((ofPolarity false).insertClass (ofSpans true digits)) :=
    .insertClass (.ofPolarity false) (.ofSpans true (by decide))
  obtain ⟨involution, -, answers, -, -, -, -, empty⟩ := complement_exact reachable
  refine ⟨_, reachable, rfl, involution, rfl, ?_, rfl, ?_⟩
  · rw [answers]
    rfl
  · rw [Ne, empty]
    decide

end PatternSampler.CharClass
