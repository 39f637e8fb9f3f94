import PatternSampler.Proofs.Matching.Leads

/-!
# Copies of a unit

A repetition of one value matches its body once and then reads copies of what the body
has spelled.  A unit that spells something can be copied only as often as it fits into
the text; one that spells nothing can be copied as often as is needed.
-/

namespace PatternSampler

variable {text : List Char} {q : Quantifier} {t : MatchState}

theorem spells_iff {position : Nat} {chars : List Char} :
    spells text.toArray position chars = true ↔ chars <+: text.drop position := by
  induction chars generalizing position with
  | nil => simp [spells]
  | cons c rest ih =>
      rw [spells, Bool.and_eq_true, ih]
      by_cases inside : position < text.length
      · rw [List.drop_eq_getElem_cons inside, List.cons_prefix_cons]
        simp only [List.getElem?_toArray, List.getElem?_eq_getElem inside, beq_iff_eq,
          Option.some.injEq, eq_comm (a := c)]
      · simp [List.getElem?_eq_none (Nat.le_of_not_lt inside),
          List.drop_eq_nil_of_le (Nat.le_of_not_lt inside)]

theorem stretch_eq (start stop : Nat) :
    stretch text.toArray start stop = text.extract start stop := by
  simp [stretch]

theorem Quantifier.not_exhausted {count : Nat} :
    q.exhausted count = false ↔ ∀ max, q.max = some max → count + 1 ≤ max := by
  cases hmax : q.max with
  | none => simp [Quantifier.exhausted, hmax]
  | some max =>
      have exhausted : q.exhausted count = decide (max ≤ count) := by
        simp [Quantifier.exhausted, hmax]
      rw [exhausted, decide_eq_false_iff_not]
      constructor
      · rintro more _ ⟨⟩
        omega
      · intro bounded
        have := bounded max rfl
        omega

theorem copies_succ {captures : List (Option (Nat × Nat))} {unit : List Char}
    {count position : Nat} :
    (∃ k, q.Allows (count + k) ∧
      Reads text (List.replicate k unit).flatten ⟨position, captures⟩ t) ↔
    (q.Allows count ∧ t = ⟨position, captures⟩) ∨
      (unit <+: text.drop position ∧ ∃ k, q.Allows (count + 1 + k) ∧
        Reads text (List.replicate k unit).flatten ⟨position + unit.length, captures⟩ t) := by
  constructor
  · rintro ⟨k, allowed, reads⟩
    cases k with
    | zero => exact .inl ⟨allowed, by simpa using reads⟩
    | succ k =>
        rw [List.replicate_succ, List.flatten_cons, reads_append] at reads
        exact .inr ⟨reads.1, k, by rwa [Nat.add_assoc, Nat.add_comm 1], reads.2⟩
  · rintro (⟨allowed, rfl⟩ | ⟨first, k, allowed, reads⟩)
    · exact ⟨0, allowed, by simp⟩
    · refine ⟨k + 1, by rwa [← Nat.add_assoc, Nat.add_right_comm], ?_⟩
      rw [List.replicate_succ, List.flatten_cons, reads_append]
      exact ⟨first, reads⟩

theorem mem_copyStates {captures : List (Option (Nat × Nat))} {unit : List Char}
    (spelled : unit ≠ []) {rounds count position : Nat}
    (allowed : ∀ max, q.max = some max → count ≤ max) (inside : position ≤ text.length)
    (enough : text.length < position + rounds) :
    t ∈ copyStates text.toArray q captures unit rounds count position ↔
      ∃ k, q.Allows (count + k) ∧
        Reads text (List.replicate k unit).flatten ⟨position, captures⟩ t := by
  induction rounds generalizing count position with
  | zero => omega
  | succ rounds ih =>
      have here : t ∈ (if q.min ≤ count then [⟨position, captures⟩] else []) ↔
          q.Allows count ∧ t = ⟨position, captures⟩ := by
        by_cases past : q.min ≤ count
        · have : q.Allows count := ⟨past, allowed⟩
          simp [past, this]
        · have : ¬q.Allows count := fun h => past h.1
          simp [past, this]
      rw [copies_succ, copyStates]
      by_cases more : q.exhausted count = false ∧ unit <+: text.drop position
      · obtain ⟨unexhausted, next⟩ := more
        have fits := next.length_le
        have := List.length_pos_iff.2 spelled
        rw [List.length_drop] at fits
        rw [if_neg (by simp [unexhausted, spells_iff.2 next]), List.mem_append, here,
          ih (Quantifier.not_exhausted.1 unexhausted) (by omega) (by omega)]
        simp [next]
      · have last : (q.exhausted count || !spells text.toArray position unit) = true := by
          rw [← spells_iff] at more
          cases hq : q.exhausted count <;> simp_all
        have none : ¬(unit <+: text.drop position ∧ ∃ k, q.Allows (count + 1 + k) ∧
            Reads text (List.replicate k unit).flatten ⟨position + unit.length, captures⟩ t) := by
          rintro ⟨next, k, allows, -⟩
          have unexhausted : q.exhausted count = false := by
            apply Quantifier.not_exhausted.2
            intro max hmax
            have := allows.2 max hmax
            omega
          exact more ⟨unexhausted, next⟩
        rw [if_pos last, here, or_iff_left none]

theorem copies_of_nothing (ordered : ∀ max, q.max = some max → q.min ≤ max)
    (unexhausted : q.exhausted 0 = false) {first : MatchState} :
    (∃ k, q.Allows (k + 1) ∧ Reads text (List.replicate k []).flatten first t) ↔ t = first := by
  have allowed : q.Allows (q.min - 1 + 1) := by
    constructor
    · omega
    · intro max hmax
      have := Quantifier.not_exhausted.1 unexhausted max hmax
      have := ordered max hmax
      omega
  simp only [List.flatten_replicate_nil, reads_nil]
  constructor
  · rintro ⟨-, -, h⟩
    exact h
  · intro h
    exact ⟨_, allowed, h⟩

theorem Quantifier.allows_zero : q.Allows 0 ↔ q.min = 0 := by
  simp [Quantifier.Allows]

theorem mem_equalStates {step : MatchState → List MatchState} {slots : Nat} {s : MatchState}
    (ordered : ∀ max, q.max = some max → q.min ≤ max)
    (move : ∀ u, u ∈ step s → s.Moves text slots u) :
    t ∈ equalStates text.toArray step q s ↔
      (q.Allows 0 ∧ t = s) ∨ ∃ k u, q.Allows (k + 1) ∧ u ∈ step s ∧
        Reads text (List.replicate k (text.extract s.position u.position)).flatten u t := by
  have unrepeated : t ∈ (if q.min = 0 then [s] else []) ↔ q.Allows 0 ∧ t = s := by
    rw [Quantifier.allows_zero]
    split <;> simp_all
  rw [equalStates]
  cases unexhausted : q.exhausted 0 with
  | true =>
      have none (k : Nat) : ¬q.Allows (k + 1) := by
        intro allowed
        have left : q.exhausted 0 = false := by
          apply Quantifier.not_exhausted.2
          intro max hmax
          have := allowed.2 max hmax
          omega
        simp [left] at unexhausted
      simp [unrepeated, none]
  | false =>
      simp only [Bool.false_eq_true, if_false, List.mem_append, unrepeated, List.mem_flatMap,
        stretch_eq]
      have one := Quantifier.not_exhausted.1 unexhausted
      refine or_congr_right ⟨?_, ?_⟩
      · rintro ⟨u, hu, ht⟩
        split at ht
        · rename_i nothing
          obtain ⟨k, allowed, reads⟩ :=
            (copies_of_nothing ordered unexhausted).2 (List.mem_singleton.1 ht)
          exact ⟨k, u, allowed, hu, by rwa [nothing]⟩
        · rename_i spelled
          rw [mem_copyStates spelled one (move u hu).within.position (by simp; omega)] at ht
          obtain ⟨k, allowed, reads⟩ := ht
          exact ⟨k, u, by rwa [Nat.add_comm], hu, reads⟩
      · rintro ⟨k, u, allowed, hu, reads⟩
        refine ⟨u, hu, ?_⟩
        split
        · rename_i nothing
          rw [nothing] at reads
          exact List.mem_singleton.2
            ((copies_of_nothing ordered unexhausted).1 ⟨k, allowed, reads⟩)
        · rename_i spelled
          rw [mem_copyStates spelled one (move u hu).within.position (by simp; omega)]
          exact ⟨k, by rwa [Nat.add_comm], reads⟩

end PatternSampler
