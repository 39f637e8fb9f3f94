import PatternSampler.Proofs.CharClass.Algebra
import PatternSampler.Proofs.IntervalSet.Canonical

/-!
# Equal classes

A class is determined by its alphabet, its polarity and the characters that it accepts.  All
that an insertion adds can be said without the class at hand: the characters it covers and
the alphabet it needs.  So the order of insertions does not show in the result, and neither
does it show how often each of them was made.
-/

namespace PatternSampler

namespace CharClass

variable {c d : CharClass}

theorem mem_iff_contains {ch : Char} (inside : ch.toNat ≤ c.alphabet.max) :
    ch.toNat ∈ c.members ↔ c.contains ch ≠ c.negated :=
  (lists_iff.trans (or_iff_left fun above => Nat.not_le_of_lt above.2 inside)).symm

theorem WellFormed.beyond_iff_contains (hc : c.WellFormed) :
    c.beyond = true ↔ c.contains (Char.ofNat 0x10FFFF) ≠ c.negated := by
  have above : c.alphabet.max < (Char.ofNat 0x10FFFF).toNat := by
    cases c.alphabet <;> decide
  have unlisted : (Char.ofNat 0x10FFFF).toNat ∉ c.members := fun listed =>
    Nat.not_le_of_lt above (hc.held _ listed).1
  exact (lists_iff.trans ((or_iff_right unlisted).trans (and_iff_left above))).symm

theorem WellFormed.ext (hc : c.WellFormed) (hd : d.WellFormed) (alphabet : c.alphabet = d.alphabet)
    (negated : c.negated = d.negated) (accepted : ∀ ch, c.contains ch = d.contains ch) : c = d := by
  have members : c.members = d.members := by
    refine hc.apart.ext hd.apart fun cp => ?_
    by_cases held : c.alphabet.Holds cp
    · obtain ⟨ch, -, rfl⟩ := held.exists_char
      rw [mem_iff_contains held.1, mem_iff_contains (alphabet ▸ held.1), accepted, negated]
    · exact iff_of_false (fun listed => held (hc.held _ listed))
        fun listed => held (alphabet ▸ hd.held _ listed)
  have beyond : c.beyond = d.beyond := by
    rw [Bool.eq_iff_iff, hc.beyond_iff_contains, hd.beyond_iff_contains, accepted, negated]
  rw [← hc.upToDate, ← hd.upToDate]
  simp only [recount, alphabet, negated, members, beyond]

end CharClass

inductive Insertion
  | char (ch : Char)
  | range (lo hi : Char)
  | whole (other : CharClass)

namespace Insertion

def apply (c : CharClass) : Insertion → Except CharClass.InsertError CharClass
  | char ch => c.insert ch
  | range lo hi => c.insertRange lo hi
  | whole other => .ok (c.insertClass other)

def applyAll (c : CharClass) (is : List Insertion) : Except CharClass.InsertError CharClass :=
  is.foldlM apply c

/-- A class that is put into another one has been built before. -/
def Reachable : Insertion → Prop
  | whole other => other.Reachable
  | _ => True

def Covers : Insertion → Char → Prop
  | char ch, c => c = ch
  | range lo hi, c => lo ≤ c ∧ c ≤ hi
  | whole other, c => other.contains c = true

/-- The alphabet that has to be there for the insertion.  What is refused needs none. -/
def needs? : Insertion → Option Alphabet
  | char ch => Alphabet.ofCodePoint? ch.toNat
  | range lo hi => if lo ≤ hi then Alphabet.ofCodePoint? hi.toNat else none
  | whole other => some other.alphabet

variable {c c' d e : CharClass} {i : Insertion} {is js : List Insertion}

theorem needs?_range_ne_none {lo hi : Char} :
    (range lo hi).needs? ≠ none ↔ lo ≤ hi ∧ hi.toNat ≤ Alphabet.bmp.max := by
  rw [needs?]
  split
  · rename_i ordered
    rw [Ne, Alphabet.ofCodePoint?_toNat, Nat.not_lt, and_iff_right ordered]
  · rename_i disordered
    simp [disordered]

theorem exists_insertRange {lo hi : Char} :
    (∃ c', c.insertRange lo hi = .ok c') ↔ (range lo hi).needs? ≠ none := by
  rw [needs?_range_ne_none]
  constructor
  · rintro ⟨c', inserted⟩
    exact CharClass.ordered_of_insertRange inserted
  · rintro ⟨ordered, inside⟩
    obtain ⟨c', run⟩ := CharClass.exists_inserted (c := c) ordered inside
    exact ⟨c', CharClass.insertRange_eq_ok.2 run⟩

theorem exists_apply : (∃ c', i.apply c = .ok c') ↔ i.needs? ≠ none := by
  cases i with
  | char ch =>
      have single : (∃ c', c.insertRange ch ch = .ok c') ↔ (range ch ch).needs? ≠ none :=
        exists_insertRange
      rwa [needs?, if_pos (Char.le_refl ch)] at single
  | range lo hi => exact exists_insertRange
  | whole other => simp [apply, needs?]

/-- The second class is the first one together with everything that is inserted. -/
structure Unites (c : CharClass) (is : List Insertion) (c' : CharClass) : Prop where
  reachable : c'.Reachable
  negated : c'.negated = c.negated
  lists : ∀ ch, c'.Lists ch ↔ c.Lists ch ∨ ∃ i ∈ is, i.Covers ch
  alphabet : c'.alphabet = .bmp ↔ c.alphabet = .bmp ∨ ∃ i ∈ is, i.needs? = some .bmp
  needed : ∀ i ∈ is, i.needs? ≠ none

namespace Unites

theorem refl (hc : c.Reachable) : Unites c [] c := ⟨hc, rfl, by simp, by simp, by simp⟩

theorem trans (first : Unites c is d) (second : Unites d js e) : Unites c (is ++ js) e where
  reachable := second.reachable
  negated := second.negated.trans first.negated
  lists ch := by
    rw [second.lists, first.lists, or_assoc]
    simp only [List.mem_append, or_and_right, exists_or]
  alphabet := by
    rw [second.alphabet, first.alphabet, or_assoc]
    simp only [List.mem_append, or_and_right, exists_or]
  needed := List.forall_mem_append.2 ⟨first.needed, second.needed⟩

theorem single {a : Alphabet} (reachable : c'.Reachable) (negated : c'.negated = c.negated)
    (lists : ∀ ch, c'.Lists ch ↔ c.Lists ch ∨ i.Covers ch) (needs : i.needs? = some a)
    (alphabet : c'.alphabet = (c.grow a).alphabet) : Unites c [i] c' where
  reachable := reachable
  negated := negated
  lists := by simpa using lists
  alphabet := by
    rw [alphabet, CharClass.alphabet_grow]
    cases a <;> simp [needs]
  needed := by simp [needs]

end Unites

theorem unites_insertRange {lo hi : Char} (hc : c.Reachable) (h : c.insertRange lo hi = .ok c')
    (covers : ∀ ch, lo ≤ ch ∧ ch ≤ hi ↔ i.Covers ch)
    (needs : i.needs? = Alphabet.ofCodePoint? hi.toNat) : Unites c [i] c' := by
  have run := CharClass.insertRange_eq_ok.1 h
  obtain ⟨negated, lists⟩ := CharClass.lists_inserted run
  obtain ⟨a, alphabet, grown⟩ := CharClass.alphabet_of_inserted run
  exact .single (hc.inserted run) negated (fun ch => (lists ch).trans (or_congr_right (covers ch)))
    (needs.trans alphabet) grown

theorem unites_apply (hc : c.Reachable) (hi : i.Reachable) (h : i.apply c = .ok c') :
    Unites c [i] c' := by
  cases i with
  | char ch =>
      refine unites_insertRange hc h (fun other => ⟨fun between => ?_, fun same => ?_⟩) rfl
      · exact Char.le_antisymm between.2 between.1
      · exact same ▸ ⟨Char.le_refl _, Char.le_refl _⟩
  | range lo hi =>
      have ordered := (CharClass.ordered_of_insertRange h).1
      exact unites_insertRange hc h (fun other => Iff.rfl) (if_pos ordered)
  | whole other =>
      cases h
      exact .single (hc.insertClass hi) CharClass.negated_insertClass
        (fun ch => CharClass.lists_insertClass hi.wellFormed) rfl
        (CharClass.alphabet_insertClass c other)

theorem unites_applyAll (hc : c.Reachable) (hi : ∀ i ∈ is, i.Reachable)
    (h : applyAll c is = .ok c') : Unites c is c' := by
  induction is generalizing c with
  | nil =>
      cases h
      exact .refl hc
  | cons i is ih =>
      obtain ⟨first, others⟩ := List.forall_mem_cons.1 hi
      rw [applyAll, List.foldlM_cons] at h
      cases applied : i.apply c with
      | error e =>
          rw [applied] at h
          cases h
      | ok d =>
          rw [applied] at h
          have one := unites_apply hc first applied
          exact one.trans (ih one.reachable others h)

theorem exists_applyAll (accepted : ∀ i ∈ is, i.needs? ≠ none) (c : CharClass) :
    ∃ c', applyAll c is = .ok c' := by
  induction is generalizing c with
  | nil => exact ⟨c, rfl⟩
  | cons i is ih =>
      obtain ⟨first, others⟩ := List.forall_mem_cons.1 accepted
      obtain ⟨d, applied⟩ := exists_apply.2 first
      obtain ⟨c', rest⟩ := ih others d
      exact ⟨c', by rw [applyAll, List.foldlM_cons, applied]; exact rest⟩

theorem Unites.unique (left : Unites c is d) (right : Unites c js e)
    (same : ∀ i, i ∈ is ↔ i ∈ js) : d = e := by
  have negated : d.negated = e.negated := left.negated.trans right.negated.symm
  have alphabet : d.alphabet = .bmp ↔ e.alphabet = .bmp := by
    simp only [left.alphabet, right.alphabet, same]
  refine left.reachable.wellFormed.ext right.reachable.wellFormed ?_ negated fun ch => ?_
  · cases hd : d.alphabet <;> cases he : e.alphabet <;> simp_all
  · rw [CharClass.contains_eq_iff negated, left.lists, right.lists]
    simp only [same]

end Insertion

/-- Reachable classes with one alphabet and one polarity are equal in all their fields exactly
when they accept the same characters.  So the insertions that lead to a class may be made in
any order and any number of times: they succeed again and lead to the same class. -/
theorem canonical_of_reachable :
    (∀ c d : CharClass, c.Reachable → d.Reachable → c.alphabet = d.alphabet →
      c.negated = d.negated → (c = d ↔ ∀ ch, c.contains ch = d.contains ch)) ∧
    ∀ (start c : CharClass) (is js : List Insertion), start.Reachable →
      (∀ i ∈ is, i.Reachable) → (∀ i, i ∈ js ↔ i ∈ is) →
      Insertion.applyAll start is = .ok c → Insertion.applyAll start js = .ok c := by
  refine ⟨fun c d hc hd alphabet negated => ⟨fun same ch => same ▸ rfl, ?_⟩, ?_⟩
  · exact hc.wellFormed.ext hd.wellFormed alphabet negated
  · intro start c is js hstart built same applied
    have united := Insertion.unites_applyAll hstart built applied
    obtain ⟨d, again⟩ := Insertion.exists_applyAll
      (fun i listed => united.needed i ((same i).1 listed)) start
    have united' := Insertion.unites_applyAll hstart
      (fun i listed => built i ((same i).1 listed)) again
    rwa [united'.unique united same] at again

theorem canonical_of_reachable_growth : ∃ c : CharClass,
    Insertion.applyAll (.ofPolarity false)
      [.whole (.ofSpans true CharClass.digits), .char 'é'] = .ok c ∧
    Insertion.applyAll (.ofPolarity false)
      [.char 'é', .whole (.ofSpans true CharClass.digits), .char 'é'] = .ok c ∧
    c = c.complement.complement := by
  obtain ⟨equal, orders⟩ := canonical_of_reachable
  have digits : (CharClass.ofSpans true CharClass.digits).Reachable := .ofSpans true (by decide)
  have start : (CharClass.ofPolarity false).Reachable := .ofPolarity false
  have applied : Insertion.applyAll (.ofPolarity false)
      [.whole (.ofSpans true CharClass.digits), .char 'é'] = .ok _ := rfl
  have built : ∀ i ∈ [Insertion.whole (.ofSpans true CharClass.digits), .char 'é'],
      i.Reachable := by simpa [Insertion.Reachable] using digits
  have united := Insertion.unites_applyAll start built applied
  refine ⟨_, applied, orders _ _ _ _ start built (fun i => ?_) applied, ?_⟩
  · simp only [List.mem_cons, List.not_mem_nil, or_false]
    tauto
  · exact (equal _ _ united.reachable united.reachable.complement.complement rfl rfl).2
      fun ch => by simp

end PatternSampler
