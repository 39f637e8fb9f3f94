import PatternSampler.Generation.Basic
import PatternSampler.Proofs.CharClass.WellFormed

/-!
# What every run ensures

`run.Ensures E Q` says that from every random source the run ends with an error in `E` or
with a value in `Q`.  Runs are put together by the rules below, and of a draw nothing is
used but the range in which its number lies.
-/

namespace PatternSampler

namespace Generation

variable {α β : Type} {E : GenerationError → Prop} {P Q : α → Prop}

def Ensures (run : Generation α) (E : GenerationError → Prop) (Q : α → Prop) : Prop :=
  ∀ source, match (run.run.run source).1 with
    | .ok a => Q a
    | .error e => E e

namespace Ensures

theorem of_ok {run : Generation α} (h : run.Ensures E Q) {source : Source} {a : α}
    (ends : (run.run.run source).1 = .ok a) : Q a := by
  have := h source
  rwa [ends] at this

theorem of_error {run : Generation α} (h : run.Ensures E Q) {source : Source}
    {e : GenerationError} (ends : (run.run.run source).1 = .error e) : E e := by
  have := h source
  rwa [ends] at this

theorem pure {a : α} (h : Q a) : Ensures (Pure.pure a) E Q := fun _ => h

theorem throw {e : GenerationError} (h : E e) : Ensures (α := α) (throw e) E Q := fun _ => h

theorem lift {draw : StateM Source α} (h : ∀ source, Q (draw.run source).1) :
    Ensures (draw : Generation α) E Q := fun source => h source

theorem bind {run : Generation α} {next : α → Generation β} {Q : β → Prop}
    (first : run.Ensures E P) (others : ∀ a, P a → (next a).Ensures E Q) :
    Ensures (run >>= next) E Q := by
  intro source
  have hfirst := first source
  simp only [ExceptT.run_bind, StateT.run_bind]
  generalize run.run.run source = result at hfirst ⊢
  obtain ⟨outcome, source⟩ := result
  cases outcome with
  | ok a => exact others a hfirst source
  | error e => exact hfirst

theorem mono {run : Generation α} (h : run.Ensures E P) (weaker : ∀ a, P a → Q a) :
    run.Ensures E Q := by
  intro source
  have := h source
  split <;> simp_all

theorem weaken {run : Generation α} {E' : GenerationError → Prop} (h : run.Ensures E Q)
    (weaker : ∀ e, E e → E' e) : run.Ensures E' Q := by
  intro source
  have := h source
  split <;> simp_all

theorem map {run : Generation α} {f : α → β} {Q : β → Prop} (h : run.Ensures E fun a => Q (f a)) :
    Ensures (f <$> run) E Q := by
  rw [← bind_pure_comp]
  exact h.bind fun a ha => .pure ha

end Ensures

theorem exists_between {lo hi : Nat} (h : lo ≤ hi) (source : Source) :
    ∃ n, (Source.between lo hi source).1 = some n ∧ lo ≤ n ∧ n ≤ hi := by
  have below := Source.drawBelow_lt (n := hi - lo + 1) (by omega) (Nat.pow 2 128) source
  rw [Source.between, if_pos h]
  -- the tries are far too many for the draw to be evaluated
  rcases drawn : Source.drawBelow (hi - lo + 1) (Nat.pow 2 128) source with ⟨offset, next⟩
  rw [drawn] at below
  exact ⟨lo + offset, rfl, by omega, by omega⟩

theorem ensures_between {lo hi : Nat} (h : lo ≤ hi) :
    (number (Source.between lo hi)).Ensures E fun n => lo ≤ n ∧ n ≤ hi := by
  refine Ensures.bind (P := fun n => ∃ m, n = some m ∧ lo ≤ m ∧ m ≤ hi)
    (.lift fun source => exists_between h source) ?_
  rintro _ ⟨m, rfl, hm⟩
  exact .pure hm

theorem exists_range {hi : Nat} (h : 0 < hi) (source : Source) :
    ∃ n, (Source.range 0 hi source).1 = some n ∧ n < hi := by
  obtain ⟨n, drawn, -, le⟩ := exists_between (Nat.zero_le (hi - 1)) source
  rw [Source.range, if_pos h]
  exact ⟨n, drawn, by omega⟩

theorem ensures_range {hi : Nat} (h : 0 < hi) :
    (number (Source.range 0 hi)).Ensures E (· < hi) := by
  refine Ensures.bind (P := fun n => ∃ m, n = some m ∧ m < hi)
    (.lift fun source => exists_range h source) ?_
  rintro _ ⟨m, rfl, hm⟩
  exact .pure hm

theorem sample_eq {α : Type} (items : List α) (source : Source) :
    (Source.sample items source).1 = (Source.range 0 items.length source).1.bind (items[·]?) := by
  unfold Source.sample
  rfl

theorem ensures_sample {α : Type} (items : List α) :
    Ensures (Source.sample items : Generation (Option α)) E fun drawn =>
      match drawn with
      | some a => a ∈ items
      | none => items = [] := by
  apply Ensures.lift
  intro source
  change match (Source.sample items source).1 with | some a => a ∈ items | none => items = []
  rw [sample_eq]
  cases items with
  | nil => rfl
  | cons first rest =>
      obtain ⟨i, drawn, lt⟩ :=
        exists_range (List.length_pos_iff.2 (List.cons_ne_nil first rest)) source
      rw [drawn, Option.bind_some, List.getElem?_eq_getElem lt]
      exact List.getElem_mem lt

end Generation

end PatternSampler
