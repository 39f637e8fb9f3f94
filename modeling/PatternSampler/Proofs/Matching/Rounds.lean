import Mathlib.Data.Fintype.BigOperators
import Mathlib.Data.Fintype.Option
import Mathlib.Data.Fintype.Pigeonhole
import PatternSampler.Proofs.Matching.Leads

/-!
# The rounds of a repetition

The loop of a repetition drops a state past the minimum that it has accepted before.
No end state is lost by that: on a shortest chain that the quantifier allows no state
comes twice past the minimum, so none of them has been accepted when its round comes.
For the same reason a shortest chain has at most as many rounds as the loop makes.
-/

namespace PatternSampler

variable {R : MatchState → MatchState → Prop} {s t u : MatchState}

namespace Rounds

theorem append {j k : Nat} (first : Rounds R j s u) (others : Rounds R k u t) :
    Rounds R (j + k) s t := by
  induction first with
  | zero s => simpa using others
  | succ first _ ih =>
      rw [Nat.add_right_comm]
      exact .succ first (ih others)

theorem snoc {k : Nat} (h : Rounds R k s u) (last : R u t) : Rounds R (k + 1) s t :=
  h.append (.succ last (.zero t))

theorem exists_path {k : Nat} (h : Rounds R k s t) :
    ∃ path : Nat → MatchState, path 0 = s ∧ path k = t ∧
      ∀ i j, i ≤ j → j ≤ k → Rounds R (j - i) (path i) (path j) := by
  induction h with
  | zero s =>
      refine ⟨fun _ => s, rfl, rfl, fun i j _ hj => ?_⟩
      rw [Nat.le_zero.1 hj, Nat.zero_sub]
      exact .zero s
  | @succ k s u t first others ih =>
      obtain ⟨path, hstart, hend, hpath⟩ := ih
      refine ⟨fun i => Nat.casesOn i s path, rfl, hend, fun i j hij hj => ?_⟩
      cases j with
      | zero =>
          rw [Nat.le_zero.1 hij]
          exact .zero s
      | succ j =>
          cases i with
          | zero =>
              subst hstart
              exact .succ first (hpath 0 j (Nat.zero_le j) (by omega))
          | succ i =>
              rw [Nat.add_sub_add_right]
              exact hpath i j (by omega) (by omega)

end Rounds

namespace MatchState

variable {text : List Char} {slots : Nat}

def view (length slots : Nat) (s : MatchState) :
    Fin (length + 1) × (Fin slots → Option (Fin (length + 1) × Fin (length + 1))) :=
  (Fin.ofNat _ s.position,
    fun i => s.captures[i.val]?.join.map fun span => (Fin.ofNat _ span.1, Fin.ofNat _ span.2))

theorem eq_of_view_eq (hs : s.Within text slots) (ht : t.Within text slots)
    (h : s.view text.length slots = t.view text.length slots) : s = t := by
  obtain ⟨samePosition, sameCaptures⟩ := Prod.mk.inj h
  have small {n : Nat} (hn : n ≤ text.length) : n % (text.length + 1) = n :=
    Nat.mod_eq_of_lt (Nat.lt_succ_of_le hn)
  have ends {u : MatchState} (hu : u.Within text slots) {start stop : Nat}
      (h : some (start, stop) ∈ u.captures) :
      start % (text.length + 1) = start ∧ stop % (text.length + 1) = stop := by
    obtain ⟨le, le'⟩ := hu.spans start stop h
    exact ⟨small (Nat.le_trans le le'), small le'⟩
  have position : s.position = t.position := by
    simpa [small hs.position, small ht.position] using congrArg Fin.val samePosition
  have captures : s.captures = t.captures := by
    apply List.ext_getElem (hs.slots.trans ht.slots.symm)
    intro i hi hi'
    have same := congrFun sameCaptures ⟨i, hs.slots ▸ hi⟩
    simp only [List.getElem?_eq_getElem hi, List.getElem?_eq_getElem hi', Option.join_some] at same
    match hsi : s.captures[i], hti : t.captures[i] with
    | none, none => rfl
    | none, some _ | some _, none => simp [hsi, hti] at same
    | some (a, b), some (c, d) =>
        have hab := ends hs (hsi ▸ List.getElem_mem hi)
        have hcd := ends ht (hti ▸ List.getElem_mem hi')
        simpa [hsi, hti, Fin.ext_iff, Fin.val_natCast, hab, hcd] using same
  cases s
  cases t
  simp_all

theorem exists_eq_of_total (path : Nat → MatchState)
    (within : ∀ i ≤ total text.length slots, (path i).Within text slots) :
    ∃ i j, i < j ∧ j ≤ total text.length slots ∧ path i = path j := by
  have more : Fintype.card (Fin (text.length + 1) ×
      (Fin slots → Option (Fin (text.length + 1) × Fin (text.length + 1)))) <
      Fintype.card (Fin (total text.length slots + 1)) := by
    rw [Fintype.card_fin]
    simp [total]
  obtain ⟨i, j, ne, same⟩ := Fintype.exists_ne_map_eq_of_card_lt
    (fun i : Fin (total text.length slots + 1) => (path i).view text.length slots) more
  have same := eq_of_view_eq (within i (by omega)) (within j (by omega)) same
  rcases Nat.lt_or_gt_of_ne (Fin.val_ne_of_ne ne) with lt | lt
  · exact ⟨i, j, lt, by omega, same⟩
  · exact ⟨j, i, lt, by omega, same.symm⟩

end MatchState

def fresh (q : Quantifier) (count : Nat) (accepted : MatchStates) (frontier : List MatchState) :
    List MatchState :=
  if q.min ≤ count then frontier.filter (!accepted.contains ·) else frontier

def extended (q : Quantifier) (count : Nat) (accepted : MatchStates) (frontier : List MatchState) :
    MatchStates :=
  if q.min ≤ count then accepted.insertMany (fresh q count accepted frontier) else accepted

variable {q : Quantifier} {count : Nat} {accepted : MatchStates} {frontier : List MatchState}

theorem repeatStates_succ (step : MatchState → List MatchState) (rounds : Nat) :
    repeatStates step q (rounds + 1) count accepted frontier =
      if (fresh q count accepted frontier).isEmpty || q.exhausted count then
        (extended q count accepted frontier).toList
      else repeatStates step q rounds (count + 1) (extended q count accepted frontier)
        (distinct ((fresh q count accepted frontier).flatMap step)) := by
  simp [repeatStates, fresh, extended]

theorem mem_fresh :
    t ∈ fresh q count accepted frontier ↔ t ∈ frontier ∧ (q.min ≤ count → t ∉ accepted) := by
  unfold fresh
  split <;> simp_all [← Std.TreeSet.contains_iff_mem]

theorem mem_extended :
    t ∈ extended q count accepted frontier ↔
      t ∈ accepted ∨ (q.min ≤ count ∧ t ∈ fresh q count accepted frontier) := by
  unfold extended
  split <;> simp_all

def Yields (step : MatchState → List MatchState) (s t : MatchState) : Prop := t ∈ step s

variable {step : MatchState → List MatchState}

/-- What the loop knows after `count` rounds from `s`. -/
structure RoundInvariant (step : MatchState → List MatchState) (q : Quantifier) (s : MatchState)
    (count : Nat) (accepted : MatchStates) (frontier : List MatchState) : Prop where
  allowed : ∀ max, q.max = some max → count ≤ max
  reached : ∀ t ∈ frontier, Rounds (Yields step) count s t
  accepted : ∀ t ∈ accepted, ∃ k < count, q.min ≤ k ∧ Rounds (Yields step) k s t

namespace RoundInvariant

theorem start : RoundInvariant step q s 0 ∅ [s] where
  allowed := by simp
  reached := by simpa using Rounds.zero s
  accepted := by simp

theorem of_mem_extended (h : RoundInvariant step q s count accepted frontier)
    (ht : t ∈ extended q count accepted frontier) :
    ∃ k < count + 1, q.min ≤ k ∧ Rounds (Yields step) k s t := by
  rcases mem_extended.1 ht with ht | ⟨past, ht⟩
  · obtain ⟨k, lt, rounds⟩ := h.accepted t ht
    exact ⟨k, by omega, rounds⟩
  · exact ⟨count, by omega, past, h.reached t (mem_fresh.1 ht).1⟩

theorem next (h : RoundInvariant step q s count accepted frontier)
    (unexhausted : q.exhausted count = false) :
    RoundInvariant step q s (count + 1) (extended q count accepted frontier)
      (distinct ((fresh q count accepted frontier).flatMap step)) where
  allowed max hmax := by
    have : count < max := by simpa [Quantifier.exhausted, hmax] using unexhausted
    omega
  reached t ht := by
    obtain ⟨u, hu, hut⟩ := List.mem_flatMap.1 (mem_distinct.1 ht)
    exact (h.reached u (mem_fresh.1 hu).1).snoc hut
  accepted t ht := h.of_mem_extended ht

theorem sound {rounds : Nat} (h : RoundInvariant step q s count accepted frontier)
    (ht : t ∈ repeatStates step q rounds count accepted frontier) :
    ∃ k, q.Allows k ∧ Rounds (Yields step) k s t := by
  induction rounds generalizing count accepted frontier with
  | zero =>
      obtain ⟨k, lt, past, rounds⟩ := h.accepted t (by simpa [repeatStates] using ht)
      exact ⟨k, ⟨past, fun max hmax => by have := h.allowed max hmax; omega⟩, rounds⟩
  | succ rounds ih =>
      rw [repeatStates_succ] at ht
      split at ht
      · obtain ⟨k, lt, past, rounds⟩ := h.of_mem_extended (by simpa using ht)
        exact ⟨k, ⟨past, fun max hmax => by have := h.allowed max hmax; omega⟩, rounds⟩
      · rename_i goes
        simp only [Bool.or_eq_true, not_or, Bool.not_eq_true] at goes
        exact ih (h.next goes.2) ht

end RoundInvariant

theorem mem_repeatStates_of_accepted {rounds : Nat} (ht : t ∈ accepted) :
    t ∈ repeatStates step q rounds count accepted frontier := by
  induction rounds generalizing count accepted frontier with
  | zero => simpa [repeatStates] using ht
  | succ rounds ih =>
      have ht : t ∈ extended q count accepted frontier := mem_extended.2 (.inl ht)
      rw [repeatStates_succ]
      split
      · simpa using ht
      · exact ih ht

theorem RoundInvariant.complete {rounds left : Nat}
    (h : RoundInvariant step q s count accepted frontier) (hu : u ∈ frontier)
    (chain : Rounds (Yields step) left u t) (allowed : q.Allows (count + left))
    (shortest : ∀ k, q.Allows k → Rounds (Yields step) k s t → count + left ≤ k)
    (enough : left < rounds) : t ∈ repeatStates step q rounds count accepted frontier := by
  induction rounds generalizing count accepted frontier left u with
  | zero => omega
  | succ rounds ih =>
      -- a state that was accepted before would begin a shorter chain
      have hu : u ∈ fresh q count accepted frontier := by
        refine mem_fresh.2 ⟨hu, fun _ old => ?_⟩
        obtain ⟨k, lt, past, earlier⟩ := h.accepted u old
        have shorter : q.Allows (k + left) :=
          ⟨by omega, fun max hmax => by have := allowed.2 max hmax; omega⟩
        have := shortest (k + left) shorter (earlier.append chain)
        omega
      rw [repeatStates_succ]
      cases chain with
      | zero =>
          have ht := mem_extended.2 (.inr ⟨allowed.1, hu⟩)
          split
          · simpa using ht
          · exact mem_repeatStates_of_accepted ht
      | @succ left _ v _ first others =>
          have unexhausted : q.exhausted count = false := by
            have := allowed.2
            cases hmax : q.max <;> simp_all [Quantifier.exhausted]
            omega
          rw [if_neg (by simp [unexhausted, List.ne_nil_of_mem hu])]
          rw [Nat.add_comm left, ← Nat.add_assoc] at allowed shortest
          exact ih (h.next unexhausted) (mem_distinct.2 (List.mem_flatMap.2 ⟨u, hu, first⟩))
            others allowed shortest (by omega)

section

variable {text : List Char} {slots : Nat}

theorem Rounds.le_of_shortest
    (move : ∀ s t, s.Within text slots → R s t → s.Moves text slots t)
    (hs : s.Within text slots) {k : Nat} (allowed : q.Allows k) (chain : Rounds R k s t)
    (shortest : ∀ j, q.Allows j → Rounds R j s t → k ≤ j) :
    k ≤ q.min + MatchState.total text.length slots := by
  apply Nat.le_of_not_lt
  intro more
  obtain ⟨path, rfl, rfl, parts⟩ := chain.exists_path
  obtain ⟨i, j, lt, le, same⟩ := MatchState.exists_eq_of_total (fun i => path (q.min + i))
    fun i hi => ((parts 0 (q.min + i) (Nat.zero_le _) (by omega)).moves move hs).within
  -- the part of the chain between the two equal states can be left out
  have before := parts 0 (q.min + i) (Nat.zero_le _) (by omega)
  have after := parts (q.min + j) k (by omega) (Nat.le_refl k)
  have shorter := before.append (same ▸ after)
  have fewer : q.Allows (q.min + i - 0 + (k - (q.min + j))) :=
    ⟨by omega, fun max hmax => by have := allowed.2 max hmax; omega⟩
  have := shortest _ fewer shorter
  omega

/-- The loop finds the ends of exactly the chains that the quantifier allows. -/
theorem mem_repeatStates
    (move : ∀ s t, s.Within text slots → t ∈ step s → s.Moves text slots t)
    (hs : s.Within text slots) :
    t ∈ repeatStates step q (q.min + MatchState.total text.length slots + 1) 0 ∅ [s] ↔
      ∃ k, q.Allows k ∧ Rounds (Yields step) k s t := by
  constructor
  · intro ht
    exact RoundInvariant.start.sound ht
  · intro some
    classical
    obtain ⟨allowed, chain⟩ := Nat.find_spec some
    have shortest (j : Nat) (hj : q.Allows j) (other : Rounds (Yields step) j s t) :
        Nat.find some ≤ j := Nat.find_min' some ⟨hj, other⟩
    have enough := chain.le_of_shortest move hs allowed shortest
    apply RoundInvariant.start.complete (List.mem_singleton_self s) chain
    · rwa [Nat.zero_add]
    · simpa using shortest
    · omega

end

end PatternSampler
