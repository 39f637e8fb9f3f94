import Mathlib.Data.Set.Card
import PatternSampler.Proofs.CharClass.Selection

/-!
# Classes that can be built

A class is built from nothing, from a character or from ASCII spans, and then changed by
insertions and complements.  An insertion that is refused leaves the class as it was.  So
every class is well-formed: its members are maximal spans inside its alphabet, and the count
that it carries is the number of characters that it accepts there.
-/

namespace PatternSampler.CharClass

variable {c c' : CharClass} {lo hi : Char} {e : InsertError}

/-- Built by constructions, insertions and complements in any order. -/
inductive Reachable : CharClass → Prop
  | ofPolarity (negated : Bool) : Reachable (ofPolarity negated)
  | allExcept (ch : Char) : Reachable (allExcept ch)
  | ofSpans (negated : Bool) {spans : List Span} (ascii : ∀ s ∈ spans, s.hi ≤ 0x7F) :
      Reachable (ofSpans negated spans)
  | inserted {c c' : CharClass} {lo hi : Char} (h : Reachable c)
      (run : (insertion lo hi).run c = .ok () c') : Reachable c'
  | refused {c c' : CharClass} {lo hi : Char} {e : InsertError} (h : Reachable c)
      (run : (insertion lo hi).run c = .error e c') : Reachable c'
  | insertClass {c other : CharClass} (h : Reachable c) (hother : Reachable other) :
      Reachable (c.insertClass other)
  | complement {c : CharClass} (h : Reachable c) : Reachable c.complement

theorem insertRange_eq_ok : c.insertRange lo hi = .ok c' ↔ (insertion lo hi).run c = .ok () c' := by
  unfold insertRange
  cases (insertion lo hi).run c with
  | ok _ inserted => simp
  | error e left => simp

theorem eq_of_refused (run : (insertion lo hi).run c = .error e c') : c' = c := by
  rw [insertion_run] at run
  split at run <;> cases run <;> rfl

theorem Reachable.wellFormed (hc : c.Reachable) : c.WellFormed := by
  induction hc with
  | ofPolarity negated => exact wellFormed_ofPolarity negated
  | allExcept ch => exact wellFormed_allExcept ch
  | ofSpans negated ascii => exact .ofSpans negated ascii
  | inserted _ run ih => exact ih.insertRange (insertRange_eq_ok.2 run)
  | refused _ run ih => exact eq_of_refused run ▸ ih
  | insertClass _ _ ih ihother => exact ih.insertClass ihother
  | complement _ ih => exact ih.complement

theorem alphabet_le_grow (c : CharClass) (a : Alphabet) :
    c.alphabet.max ≤ (c.grow a).alphabet.max := by
  rw [alphabet_grow]
  cases c.alphabet <;> cases a <;> decide

theorem alphabet_of_inserted (run : (insertion lo hi).run c = .ok () c') :
    ∃ a, Alphabet.ofCodePoint? hi.toNat = some a ∧ c'.alphabet = (c.grow a).alphabet := by
  rw [insertion_run] at run
  split at run <;> cases run
  rename_i a _ halphabet
  exact ⟨a, halphabet, rfl⟩

theorem alphabet_insertClass (c other : CharClass) :
    (c.insertClass other).alphabet = (c.grow other.alphabet).alphabet := by
  simp only [insertClass, alphabet_recount]
  split
  · exact alphabet_listAbove _ _
  · rfl

/-- How a class is stored, and what its count and its fullness say about the characters of
its alphabet. -/
structure Intact (c : CharClass) : Prop where
  apart : c.members.spans.Pairwise fun s t => s.hi + 1 < t.lo
  nonempty : ∀ s ∈ c.members.spans, s.lo ≤ s.hi
  inside : ∀ cp ∈ c.members, cp ≤ c.alphabet.max ∧ ¬Alphabet.IsSurrogate cp
  counted : {ch : Char | ch.toNat ≤ c.alphabet.max ∧ c.contains ch = true}.encard = c.selectable
  selectable_le : c.selectable ≤ c.alphabet.size
  members_le : c.members.size ≤ c.alphabet.size
  full : c.isFull = true ↔ ∀ ch : Char, ch.toNat ≤ c.alphabet.max → c.contains ch = true

theorem holds_toNat {a : Alphabet} {ch : Char} : a.Holds ch.toNat ↔ ch.toNat ≤ a.max :=
  and_iff_left (Alphabet.not_isSurrogate_toNat ch)

theorem WellFormed.encard_accepted (hc : c.WellFormed) :
    {ch : Char | ch.toNat ≤ c.alphabet.max ∧ c.contains ch = true}.encard = c.selectable := by
  have codes : Char.toNat '' {ch : Char | ch.toNat ≤ c.alphabet.max ∧ c.contains ch = true} =
      c.selection.elements.toFinset := by
    ext cp
    simp only [Set.mem_image, Set.mem_ofPred_eq, List.coe_toFinset, IntervalSet.mem_elements,
      mem_selection hc]
    constructor
    · rintro ⟨ch, ⟨le, accepted⟩, rfl⟩
      exact ⟨holds_toNat.2 le, bne_iff_ne.1 accepted⟩
    · rintro ⟨held, accepted⟩
      obtain ⟨ch, -, rfl⟩ := held.exists_char
      exact ⟨ch, ⟨held.1, bne_iff_ne.2 accepted⟩, rfl⟩
  rw [← (Set.injOn_of_injective fun _ _ => Char.toNat_inj.1).encard_image, codes,
    Set.encard_coe_eq_coe_finsetCard,
    List.toFinset_card_of_nodup (separated_selection hc).nodup_elements,
    IntervalSet.length_elements, size_selection hc]

theorem WellFormed.intact (hc : c.WellFormed) : c.Intact where
  apart := hc.apart
  nonempty s _ := s.ordered
  inside := hc.held
  counted := hc.encard_accepted
  selectable_le := by
    have := selectable_add hc
    omega
  members_le := hc.counted
  full := by
    rw [isFull_iff hc]
    exact forall_congr' fun ch => by rw [holds_toNat]

/-- Every class that can be built is stored as a sorted list of spans inside its alphabet with
the right count, also half-way through an insertion, and no insertion, refused or not, makes
its alphabet smaller. -/
theorem intact_of_reachable (hc : c.Reachable) :
    c.Intact ∧
    (∀ a, (c.grow a).Intact) ∧
    (∀ lo hi c', ((insertion lo hi).run c = .ok () c' ∨
      ∃ e, (insertion lo hi).run c = .error e c') → c.alphabet.max ≤ c'.alphabet.max) ∧
    ∀ other, c.alphabet.max ≤ (c.insertClass other).alphabet.max := by
  refine ⟨hc.wellFormed.intact, fun a => (hc.wellFormed.grow a).intact, ?_, fun other => ?_⟩
  · rintro lo hi c' (run | ⟨e, run⟩)
    · obtain ⟨a, -, alphabet⟩ := alphabet_of_inserted run
      exact alphabet ▸ alphabet_le_grow c a
    · exact Nat.le_of_eq (congrArg (·.alphabet.max) (eq_of_refused run).symm)
  · exact alphabet_insertClass c other ▸ alphabet_le_grow c _

theorem intact_of_reachable_grown : ∃ c c' : CharClass, c.Reachable ∧ c.beyond = true ∧
    (insertion 'é' 'é').run c = .ok () c' ∧ c'.selectable = 63478 ∧ c'.Intact := by
  have start : Reachable ((ofPolarity false).insertClass (ofSpans true digits)) :=
    .insertClass (.ofPolarity false) (.ofSpans true (by decide))
  have run : (insertion 'é' 'é').run ((ofPolarity false).insertClass (ofSpans true digits)) =
      .ok () _ := rfl
  exact ⟨_, _, start, rfl, run, rfl, (intact_of_reachable (start.inserted run)).1⟩

end PatternSampler.CharClass
