import PatternSampler.Proofs.CharClass.Reachable

/-!
# Insertions as unions

What a class lists is a set of characters that reaches past its alphabet.  An insertion adds
the characters of a range, or those that another class accepts, to that set and changes
nothing else about it.  Growing the alphabet alone changes nothing.
-/

namespace PatternSampler

theorem Span.ofBounds?_eq_some {lo hi : Nat} {s : Span} :
    ofBounds? lo hi = some s ↔ s.lo = lo ∧ s.hi = hi := by
  unfold ofBounds?
  split
  · rw [Option.some.injEq]
    constructor
    · rintro rfl
      exact ⟨rfl, rfl⟩
    · rintro ⟨rfl, rfl⟩
      rfl
  · rename_i disordered
    have := s.ordered
    simp only [reduceCtorEq, false_iff]
    rintro ⟨rfl, rfl⟩
    exact disordered this

theorem Alphabet.ofCodePoint?_toNat (ch : Char) :
    ofCodePoint? ch.toNat = none ↔ bmp.max < ch.toNat := by
  have small : ascii.max ≤ bmp.max := by decide
  simp only [ofCodePoint?, CharClass.holds_toNat]
  split
  · simp only [reduceCtorEq, false_iff]
    omega
  · split
    · simp only [reduceCtorEq, false_iff]
      omega
    · simp only [true_iff]
      omega

namespace CharClass

variable {c c' other : CharClass} {lo hi ch : Char}

def Lists (c : CharClass) (ch : Char) : Prop := c.contains ch ≠ c.negated

theorem lists_iff :
    c.Lists ch ↔ ch.toNat ∈ c.members ∨ c.beyond = true ∧ c.alphabet.max < ch.toNat := by
  have unfolded : c.Lists ch ↔ c.lists ch.toNat = true := by
    rw [Lists, contains]
    cases c.lists ch.toNat <;> cases c.negated <;> decide
  rw [unfolded, lists]
  simp

theorem contains_eq_iff (polarity : c'.negated = c.negated) :
    c'.contains ch = c.contains ch ↔ (c'.Lists ch ↔ c.Lists ch) := by
  rw [Lists, Lists, polarity]
  cases c'.contains ch <;> cases c.contains ch <;> cases c.negated <;> decide

@[simp] theorem lists_recount : c.recount.Lists ch ↔ c.Lists ch := by
  rw [lists_iff, lists_iff]
  rfl

theorem mem_cutSurrogates_toNat {a : Alphabet} {s : IntervalSet} :
    ch.toNat ∈ cutSurrogates a s ↔ ch.toNat ∈ s :=
  mem_cutSurrogates.trans (and_iff_left fun _ => Alphabet.not_isSurrogate_toNat ch)

@[simp] theorem beyond_listAbove (c : CharClass) (bound : Nat) :
    (c.listAbove bound).beyond = c.beyond := by
  unfold listAbove
  split <;> rfl

theorem mem_listAbove {bound : Nat} : ch.toNat ∈ (c.listAbove bound).members ↔
    ch.toNat ∈ c.members ∨ bound < ch.toNat ∧ ch.toNat ≤ c.alphabet.max := by
  unfold listAbove
  split
  · rw [mem_cutSurrogates_toNat, IntervalSet.mem_insert, Span.mem_def, or_comm]
    rfl
  · rename_i none
    refine (or_iff_left fun between => none ?_).symm
    exact Nat.lt_of_lt_of_le between.1 between.2

theorem lists_grow (c : CharClass) (a : Alphabet) (ch : Char) :
    (c.grow a).Lists ch ↔ c.Lists ch := by
  unfold grow
  split
  · rename_i alphabet
    rw [lists_recount]
    split
    · rename_i beyond
      simp only [lists_iff, mem_listAbove, alphabet_listAbove, beyond_listAbove, beyond, alphabet,
        true_and, or_assoc]
      refine or_congr_right ?_
      have larger : Alphabet.ascii.max < Alphabet.bmp.max := by decide
      omega
    · rename_i nothing
      simp [lists_iff, nothing]
  · rfl

theorem insertion_error_invalidRange_iff :
    (insertion lo hi).run c = .error .invalidRange c ↔ hi < lo := by
  have order : hi < lo ↔ ¬lo.toNat ≤ hi.toNat := Nat.not_le.symm
  rw [insertion_run, order]
  unfold Span.ofBounds?
  by_cases ordered : lo.toNat ≤ hi.toNat
  · cases Alphabet.ofCodePoint? hi.toNat <;> simp [ordered]
  · simp [ordered]

theorem insertion_error_outsideAlphabet_iff :
    (insertion lo hi).run c = .error (.outsideAlphabet hi.toNat) c ↔
      lo ≤ hi ∧ Alphabet.bmp.max < hi.toNat := by
  have order : lo ≤ hi ↔ lo.toNat ≤ hi.toNat := Iff.rfl
  rw [insertion_run, order, ← Alphabet.ofCodePoint?_toNat]
  unfold Span.ofBounds?
  by_cases ordered : lo.toNat ≤ hi.toNat
  · cases Alphabet.ofCodePoint? hi.toNat <;> simp [ordered]
  · simp [ordered]

theorem ordered_of_insertRange (h : c.insertRange lo hi = .ok c') :
    lo ≤ hi ∧ hi.toNat ≤ Alphabet.bmp.max := by
  have run := insertRange_eq_ok.1 h
  have ordered : lo ≤ hi := by
    refine Nat.not_lt.1 fun reversed => ?_
    rw [insertion_error_invalidRange_iff.2 reversed] at run
    cases run
  refine ⟨ordered, Nat.not_lt.1 fun above => ?_⟩
  rw [insertion_error_outsideAlphabet_iff.2 ⟨ordered, above⟩] at run
  cases run

theorem exists_inserted (ordered : lo ≤ hi) (inside : hi.toNat ≤ Alphabet.bmp.max) :
    ∃ c', (insertion lo hi).run c = .ok () c' := by
  have bounds : Span.ofBounds? lo.toNat hi.toNat = some ⟨lo.toNat, hi.toNat, ordered⟩ :=
    dif_pos ordered
  obtain ⟨a, alphabet⟩ : ∃ a, Alphabet.ofCodePoint? hi.toNat = some a :=
    Option.ne_none_iff_exists'.1 fun none =>
      Nat.not_le_of_lt ((Alphabet.ofCodePoint?_toNat hi).1 none) inside
  exact ⟨_, by rw [insertion_run, bounds, alphabet]⟩

theorem lists_inserted (run : (insertion lo hi).run c = .ok () c') :
    c'.negated = c.negated ∧ ∀ ch, c'.Lists ch ↔ c.Lists ch ∨ lo ≤ ch ∧ ch ≤ hi := by
  rw [insertion_run] at run
  split at run <;> cases run
  rename_i s a bounds _
  obtain ⟨lower, upper⟩ := Span.ofBounds?_eq_some.1 bounds
  refine ⟨negated_grow c a, fun ch => ?_⟩
  have grown := lists_grow c a ch
  rw [lists_iff] at grown
  rw [lists_recount, lists_iff, ← grown]
  simp only [mem_cutSurrogates_toNat, IntervalSet.mem_insert, Span.mem_def, lower, upper]
  rw [or_assoc, or_comm]
  rfl

theorem WellFormed.contains_iff (hc : c.WellFormed) : c.contains ch = true ↔
    ch.toNat ∈ c.selection ∨ c.acceptsBeyond = true ∧ c.alphabet.max < ch.toNat := by
  rw [mem_selection hc, holds_toNat, contains, bne_iff_ne]
  by_cases inside : ch.toNat ≤ c.alphabet.max
  · simp [inside]
  · have unlisted : ch.toNat ∉ c.members := fun listed => inside (hc.held _ listed).1
    have lists : c.lists ch.toNat = c.beyond := by
      simp [lists, unlisted, Nat.not_le.1 inside]
    simp [inside, lists, acceptsBeyond, Nat.not_le.1 inside]

theorem lists_insertClass (hother : other.WellFormed) :
    (c.insertClass other).Lists ch ↔ c.Lists ch ∨ other.contains ch = true := by
  have larger := max_le_grow c other.alphabet
  rw [hother.contains_iff, ← lists_grow c other.alphabet]
  simp only [insertClass, lists_recount]
  split
  · rename_i accepts
    have above : other.alphabet.max < ch.toNat ↔
        other.alphabet.max < ch.toNat ∧ ch.toNat ≤ (c.grow other.alphabet).alphabet.max ∨
          (c.grow other.alphabet).alphabet.max < ch.toNat := by omega
    simp only [lists_iff, mem_listAbove, alphabet_listAbove, IntervalSet.mem_union, accepts,
      true_and]
    rw [above]
    tauto
  · rename_i rejects
    simp only [lists_iff, IntervalSet.mem_union, rejects, Bool.false_eq_true, false_and, or_false]
    rw [or_assoc, or_assoc, or_comm (a := ch.toNat ∈ other.selection)]

theorem negated_insertClass : (c.insertClass other).negated = c.negated := by
  simp only [insertClass, negated_recount]
  split <;> simp

/-- What an insertion does to the listed characters, whatever the alphabets, the polarities
and the characters are: it adds a range or what another class accepts.  A range is refused
exactly when it is out of order or ends above the plane, and then nothing has changed. -/
theorem insertion_exact (c : CharClass) (hother : other.Reachable) (lo hi : Char) :
    ((insertion lo hi).run c = .error .invalidRange c ↔ lo > hi) ∧
    ((insertion lo hi).run c = .error (.outsideAlphabet hi.toNat) c ↔
      lo ≤ hi ∧ hi.toNat > 0xFFFF) ∧
    (∀ e c', (insertion lo hi).run c = .error e c' → c' = c) ∧
    (lo ≤ hi → hi.toNat ≤ 0xFFFF → ∃ c', (insertion lo hi).run c = .ok () c' ∧
      c'.negated = c.negated ∧ ∀ ch, c'.Lists ch ↔ c.Lists ch ∨ lo ≤ ch ∧ ch ≤ hi) ∧
    (c.insertClass other).negated = c.negated ∧
    (∀ ch, (c.insertClass other).Lists ch ↔ c.Lists ch ∨ other.contains ch = true) ∧
    ∀ a, (c.grow a).negated = c.negated ∧ ∀ ch, (c.grow a).contains ch = c.contains ch := by
  refine ⟨insertion_error_invalidRange_iff, insertion_error_outsideAlphabet_iff,
    fun _ _ => eq_of_refused, ?_, negated_insertClass,
    fun ch => lists_insertClass hother.wellFormed, fun a => ?_⟩
  · intro ordered inside
    obtain ⟨c', run⟩ := exists_inserted (c := c) ordered inside
    exact ⟨c', run, lists_inserted run⟩
  · exact ⟨negated_grow c a, fun ch => (contains_eq_iff (negated_grow c a)).2 (lists_grow c a ch)⟩

/-- A class of the plane takes over what a negated ASCII class accepts, also above the plane. -/
theorem insertion_exact_negated : ∃ c other : CharClass, other.Reachable ∧ c.alphabet = .bmp ∧
    other.alphabet = .ascii ∧ (c.insertClass other).Lists '\uffff' ∧
    (c.insertClass other).Lists (Char.ofNat 0x1F600) ∧ ¬(c.insertClass other).Lists '5' := by
  have accepts : (ofSpans true digits).Reachable := .ofSpans true (by decide)
  obtain ⟨-, -, -, -, -, union, -⟩ := insertion_exact ((ofPolarity false).grow .bmp) accepts 'a' 'a'
  exact ⟨_, _, accepts, rfl, rfl, (union _).2 (.inr rfl), (union _).2 (.inr rfl),
    fun listed => absurd ((union _).1 listed) (by simp [Lists]; decide)⟩

end CharClass

end PatternSampler
