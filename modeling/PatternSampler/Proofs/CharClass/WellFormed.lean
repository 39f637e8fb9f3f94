import PatternSampler.CharClass.Named
import PatternSampler.Proofs.IntervalSet.Complement

/-!
# Well-formed classes

The members of a class are spans in order inside its alphabet, and its count is that of
these members.  Every construction keeps this, and for such a class the numbers that a draw
may produce are exactly those of the alphabet that the class accepts.
-/

namespace PatternSampler

theorem toNat_of_charOf? {cp : Nat} {ch : Char} (h : charOf? cp = some ch) : ch.toNat = cp := by
  unfold charOf? at h
  split at h <;> simp only [Option.some.injEq, reduceCtorEq] at h
  rename_i hvalid
  rw [← h, Char.ofNat, dif_pos hvalid]
  rfl

theorem charOf?_toNat (ch : Char) : charOf? ch.toNat = some ch := by
  have valid : ch.toNat.isValidChar := ch.valid
  simp [charOf?, valid]

namespace Alphabet

theorem holds_ascii {cp : Nat} : ascii.Holds cp ↔ cp ≤ ascii.max := by
  simp only [Holds, IsSurrogate, firstSurrogate, max]
  omega

theorem not_isSurrogate_toNat (ch : Char) : ¬IsSurrogate ch.toNat := by
  have := ch.valid
  simp only [UInt32.isValidChar, Nat.isValidChar] at this
  change ¬(0xD800 ≤ ch.val.toNat ∧ ch.val.toNat ≤ 0xDFFF)
  omega

theorem Holds.bmp {a : Alphabet} {cp : Nat} (h : a.Holds cp) : Alphabet.bmp.Holds cp := by
  cases a with
  | bmp => exact h
  | ascii => exact ⟨Nat.le_trans h.1 (by decide), h.2⟩

theorem holds_of_ofCodePoint? {cp : Nat} {a : Alphabet} (h : ofCodePoint? cp = some a) :
    a.Holds cp := by
  unfold ofCodePoint? at h
  split at h
  · simp_all
  · split at h <;> simp_all

end Alphabet

namespace CharClass

/-- The members are in order and inside the alphabet. -/
structure Confined (c : CharClass) : Prop where
  apart : c.members.Separated
  held : ∀ cp ∈ c.members, c.alphabet.Holds cp

structure WellFormed (c : CharClass) : Prop extends c.Confined where
  upToDate : c.recount = c

theorem Confined.recount {c : CharClass} (hc : c.Confined) : c.recount.WellFormed :=
  ⟨⟨hc.apart, hc.held⟩, rfl⟩

theorem mem_cutSurrogates {a : Alphabet} {s : IntervalSet} {cp : Nat} :
    cp ∈ cutSurrogates a s ↔ cp ∈ s ∧ (a = .bmp → ¬Alphabet.IsSurrogate cp) := by
  cases a with
  | ascii => simp [cutSurrogates]
  | bmp => simp [cutSurrogates, Span.mem_def, Alphabet.IsSurrogate]

theorem separated_cutSurrogates {s : IntervalSet} (a : Alphabet) (apart : s.Separated) :
    (cutSurrogates a s).Separated := by
  cases a with
  | ascii => exact apart
  | bmp => exact apart.remove _

theorem holds_iff_le {a : Alphabet} {cp : Nat} :
    a.Holds cp ↔ cp ≤ a.max ∧ (a = .bmp → ¬Alphabet.IsSurrogate cp) := by
  cases a with
  | ascii => simp [Alphabet.holds_ascii]
  | bmp => simp [Alphabet.Holds]

theorem wellFormed_ofPolarity (negated : Bool) : (ofPolarity negated).WellFormed :=
  Confined.recount ⟨IntervalSet.separated_empty, by simp⟩

namespace Confined

theorem insertSpan {c : CharClass} (hc : c.Confined) {s : Span} (hs : s.hi ≤ c.alphabet.max) :
    Confined { c with members := cutSurrogates c.alphabet (c.members.insert s) } where
  apart := separated_cutSurrogates _ (hc.apart.insert s)
  held cp h := by
    simp only [mem_cutSurrogates, IntervalSet.mem_insert, Span.mem_def] at h
    obtain ⟨⟨-, hcp⟩ | hmem, hsurrogate⟩ := h
    · exact holds_iff_le.2 ⟨Nat.le_trans hcp hs, hsurrogate⟩
    · exact hc.held cp hmem

theorem listAbove {c : CharClass} (hc : c.Confined) (bound : Nat) :
    (c.listAbove bound).Confined := by
  unfold CharClass.listAbove
  split
  · exact hc.insertSpan (Nat.le_refl _)
  · exact hc

end Confined

theorem WellFormed.grow {c : CharClass} (hc : c.WellFormed) (a : Alphabet) :
    (c.grow a).WellFormed := by
  have grown : Confined { c with alphabet := .bmp } :=
    ⟨hc.apart, fun cp h => (hc.held cp h).bmp⟩
  unfold CharClass.grow
  split
  · split
    · exact (grown.listAbove _).recount
    · exact grown.recount
  · exact hc

@[simp] theorem alphabet_listAbove (c : CharClass) (bound : Nat) :
    (c.listAbove bound).alphabet = c.alphabet := by
  unfold listAbove
  split <;> rfl

theorem alphabet_grow (c : CharClass) (a : Alphabet) :
    (c.grow a).alphabet = if a = .bmp then .bmp else c.alphabet := by
  unfold grow
  cases hc : c.alphabet <;> cases a <;> simp [hc]
  split <;> simp

@[simp] theorem negated_listAbove (c : CharClass) (bound : Nat) :
    (c.listAbove bound).negated = c.negated := by
  unfold listAbove
  split <;> rfl

@[simp] theorem negated_grow (c : CharClass) (a : Alphabet) : (c.grow a).negated = c.negated := by
  unfold grow
  split
  · split <;> simp
  · rfl

theorem max_le_grow (c : CharClass) (a : Alphabet) : a.max ≤ (c.grow a).alphabet.max := by
  rw [alphabet_grow]
  cases a <;> cases c.alphabet <;> decide

theorem holds_grow {c : CharClass} {a : Alphabet} {cp : Nat} (h : a.Holds cp) :
    (c.grow a).alphabet.Holds cp := by
  rw [alphabet_grow]
  cases a with
  | bmp => exact h
  | ascii =>
      cases c.alphabet with
      | ascii => exact h
      | bmp => exact h.bmp

namespace WellFormed

theorem insertRange {c c' : CharClass} (hc : c.WellFormed) {lo hi : Char}
    (h : c.insertRange lo hi = .ok c') : c'.WellFormed := by
  rw [insertRange_eq] at h
  split at h <;> simp only [Except.ok.injEq, reduceCtorEq] at h
  rename_i s a hspan halphabet
  subst h
  refine ((hc.grow a).insertSpan ?_).recount
  have hhi : s.hi = hi.toNat := by
    simp only [Span.ofBounds?] at hspan
    split at hspan <;> simp at hspan
    rw [← hspan]
  rw [hhi]
  exact Nat.le_trans (Alphabet.holds_of_ofCodePoint? halphabet).1 (max_le_grow c a)

theorem complement {c : CharClass} (hc : c.WellFormed) : c.complement.WellFormed :=
  Confined.recount ⟨hc.apart, hc.held⟩

theorem ofSpans (negated : Bool) {spans : List Span} (small : ∀ s ∈ spans, s.hi ≤ 0x7F) :
    (ofSpans negated spans).WellFormed := by
  have fold : ∀ (spans : List Span) (start : IntervalSet), (∀ s ∈ spans, s.hi ≤ 0x7F) →
      Confined { ofPolarity negated with members := start } →
      Confined { ofPolarity negated with members := spans.foldl IntervalSet.insert start } := by
    intro spans
    induction spans with
    | nil => exact fun _ _ h => h
    | cons s rest ih =>
        intro start small h
        rw [List.forall_mem_cons] at small
        exact ih _ small.2 (h.insertSpan small.1)
  exact (fold spans ∅ small (wellFormed_ofPolarity negated).toConfined).recount

end WellFormed

/-- A draw may produce exactly what the class accepts inside its alphabet. -/
theorem mem_selection {c : CharClass} (hc : c.WellFormed) {cp : Nat} :
    cp ∈ c.selection ↔ c.alphabet.Holds cp ∧ c.lists cp ≠ c.negated := by
  have inside : c.alphabet.Holds cp → (c.lists cp = true ↔ cp ∈ c.members) := by
    intro h
    have hle : ¬c.alphabet.max < cp := Nat.not_lt.2 h.1
    simp [lists, hle]
  unfold selection
  cases hneg : c.negated with
  | false =>
      simp only [Bool.false_eq_true, if_false, ne_eq, Bool.not_eq_false]
      exact ⟨fun h => ⟨hc.held cp h, (inside (hc.held cp h)).2 h⟩, fun h => (inside h.1).1 h.2⟩
  | true =>
      simp only [if_true, mem_cutSurrogates, IntervalSet.mem_complementWithin hc.apart]
      rw [holds_iff_le]
      constructor
      · rintro ⟨⟨hle, hmem⟩, hsurrogate⟩
        exact ⟨⟨hle, hsurrogate⟩, fun h => hmem ((inside (holds_iff_le.2 ⟨hle, hsurrogate⟩)).1 h)⟩
      · rintro ⟨hholds, hlists⟩
        exact ⟨⟨hholds.1, fun h => hlists ((inside (holds_iff_le.2 hholds)).2 h)⟩, hholds.2⟩

theorem WellFormed.insertClass {c other : CharClass} (hc : c.WellFormed)
    (hother : other.WellFormed) : (c.insertClass other).WellFormed := by
  have united : Confined
      { c.grow other.alphabet with
        members := (c.grow other.alphabet).members ∪ other.selection } := by
    refine ⟨(hc.grow _).apart.union _, fun cp h => ?_⟩
    rw [IntervalSet.mem_union] at h
    rcases h with h | h
    · exact (hc.grow _).held cp h
    · exact holds_grow ((mem_selection hother).1 h).1
  unfold CharClass.insertClass
  dsimp only
  split
  · exact Confined.recount ⟨(united.listAbove _).apart, (united.listAbove _).held⟩
  · exact united.recount

theorem of_nth? {c : CharClass} (hc : c.WellFormed) {n : Nat} {ch : Char}
    (h : c.nth? n = some ch) : c.alphabet.Holds ch.toNat ∧ c.contains ch = true := by
  obtain ⟨cp, hcp, hch⟩ := Option.bind_eq_some_iff.1 h
  rw [toNat_of_charOf? hch, contains, toNat_of_charOf? hch, bne_iff_ne]
  exact (mem_selection hc).1 (IntervalSet.mem_of_nth? hcp)

@[simp] theorem contains_complement (c : CharClass) (ch : Char) :
    c.complement.contains ch = !c.contains ch := by
  cases h : c.negated <;> simp [contains, complement, lists, h]

theorem wellFormed_allExcept (ch : Char) : (allExcept ch).WellFormed := by
  rw [allExcept_eq_insert]
  split
  · rename_i c h
    exact (wellFormed_ofPolarity true).insertRange h
  · exact (wellFormed_ofPolarity true).grow _

theorem lists_of_insert {c c' : CharClass} {ch : Char} (h : c.insert ch = .ok c') :
    c'.lists ch.toNat = true ∧ c'.negated = c.negated := by
  rw [insert, insertRange_eq] at h
  split at h <;> simp only [Except.ok.injEq, reduceCtorEq] at h
  rename_i s a hspan _
  simp only [Span.ofBounds?, Nat.le_refl, dif_pos, Option.some.injEq] at hspan
  subst h hspan
  refine ⟨?_, negated_grow c a⟩
  have hmem : ch.toNat ∈ cutSurrogates (c.grow a).alphabet
      ((c.grow a).members.insert ⟨ch.toNat, ch.toNat, Nat.le_refl _⟩) := by
    rw [mem_cutSurrogates, IntervalSet.mem_insert, Span.mem_def]
    exact ⟨.inl ⟨Nat.le_refl _, Nat.le_refl _⟩, fun _ => Alphabet.not_isSurrogate_toNat ch⟩
  simp [lists, hmem]

theorem not_holds_of_insert {c : CharClass} {ch : Char} {e : InsertError}
    (h : c.insert ch = .error e) : ¬Alphabet.bmp.Holds ch.toNat := by
  rw [insert, insertRange_eq] at h
  split at h <;> simp only [reduceCtorEq, Except.error.injEq] at h
  · rename_i hspan
    simp [Span.ofBounds?] at hspan
  · rename_i hnone
    intro hholds
    simp only [Alphabet.ofCodePoint?, hholds, if_true] at hnone
    split at hnone <;> simp at hnone

theorem ne_of_contains_allExcept {ch other : Char}
    (hheld : (allExcept ch).alphabet.Holds other.toNat)
    (hcontains : (allExcept ch).contains other = true) : other ≠ ch := by
  rintro rfl
  rw [allExcept_eq_insert] at hheld hcontains
  cases hinsert : (ofPolarity true).insert other with
  | ok c =>
      simp only [hinsert] at hcontains
      obtain ⟨hlists, hnegated⟩ := lists_of_insert hinsert
      simp [contains, hlists, hnegated, ofPolarity] at hcontains
  | error e =>
      simp only [hinsert] at hheld
      exact not_holds_of_insert hinsert hheld.bmp

end CharClass

end PatternSampler
