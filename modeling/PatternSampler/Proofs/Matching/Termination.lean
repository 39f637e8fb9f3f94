import Mathlib.Data.Set.Card
import PatternSampler.Proofs.Loop
import PatternSampler.Proofs.Matching.Moves

/-!
# The loops of a repetition end

A round of a repetition accepts a state that has not been accepted before, unless it comes before
the minimum or is the last one.  There are only so many states over a text, so the rounds are
bounded even if the body matches the empty text or does nothing but capture.  A copy of a unit
moves forwards in the text, which bounds the copies.
-/

namespace PatternSampler

variable {text : List Char} {slots : Nat} {s : MatchState} {q : Quantifier}

namespace MatchState

theorem injOn_view (text : List Char) (slots : Nat) :
    Set.InjOn (view text.length slots) {t : MatchState | t.Within text slots} :=
  fun _ hs _ ht => eq_of_view_eq hs ht

theorem finite_within (text : List Char) (slots : Nat) :
    {t : MatchState | t.Within text slots}.Finite :=
  Set.Finite.of_injOn (Set.mapsTo_univ _ _) (injOn_view text slots) Set.finite_univ

theorem ncard_within_le (text : List Char) (slots : Nat) :
    {t : MatchState | t.Within text slots}.ncard ≤ total text.length slots := by
  refine (Set.ncard_le_ncard_of_injOn _ (fun _ _ => Set.mem_univ _) (injOn_view text slots)
    Set.finite_univ).trans ?_
  rw [Set.ncard_univ, Nat.card_eq_fintype_card]
  simp [total]

end MatchState

/-! ## Rounds -/

/-- What a round of a repetition begins with. -/
structure RoundState where
  count : Nat
  accepted : MatchStates
  frontier : List MatchState

namespace RoundState

def start (s : MatchState) : RoundState := ⟨0, ∅, [s]⟩

def fresh (q : Quantifier) (r : RoundState) : List MatchState :=
  PatternSampler.fresh q r.count r.accepted r.frontier

def kept (q : Quantifier) (r : RoundState) : MatchStates :=
  extended q r.count r.accepted r.frontier

def Moves (text : List Char) (slots : Nat) (s : MatchState) (r : RoundState) : Prop :=
  ∀ t, t ∈ r.frontier ∨ t ∈ r.accepted → s.Moves text slots t

/-- How many rounds may follow: those up to the minimum and one for each state that has not been
accepted. -/
noncomputable def left (text : List Char) (slots : Nat) (q : Quantifier) (r : RoundState) : Nat :=
  (q.min - r.count) + ({t : MatchState | t.Within text slots} \ {t | t ∈ r.accepted}).ncard

end RoundState

def rounding (step : MatchState → List MatchState) (q : Quantifier) : Loop RoundState where
  isLast r := (r.fresh q).isEmpty || q.exhausted r.count
  onward r := ⟨r.count + 1, r.kept q, distinct ((r.fresh q).flatMap step)⟩

section

variable {step : MatchState → List MatchState} {r last : RoundState}

theorem repeatStates_of_leavesIn {passes : Nat} (h : (rounding step q).LeavesIn passes r last)
    {rounds : Nat} (enough : passes ≤ rounds) :
    repeatStates step q rounds r.count r.accepted r.frontier = (last.kept q).toList := by
  induction h generalizing rounds with
  | leave left =>
      obtain ⟨rounds, rfl⟩ := Nat.exists_eq_add_of_le' enough
      rw [repeatStates_succ]
      exact if_pos left
  | pass goes others ih =>
      obtain ⟨rounds, rfl⟩ := Nat.exists_eq_add_of_le' (Nat.le_of_add_left_le enough)
      rw [repeatStates_succ]
      refine (if_neg (Bool.eq_false_iff.1 goes)).trans (ih ?_)
      omega

namespace RoundState

theorem moves_start (hs : s.Within text slots) : (start s).Moves text slots s := by
  rintro t (frontier | accepted)
  · cases List.mem_singleton.1 frontier
    exact .refl hs
  · simp [start] at accepted

theorem Moves.of_mem_fresh (h : r.Moves text slots s) {t : MatchState} (ht : t ∈ r.fresh q) :
    s.Moves text slots t :=
  h t (.inl (mem_fresh.1 ht).1)

theorem Moves.onward (move : ∀ s t, s.Within text slots → t ∈ step s → s.Moves text slots t)
    (h : r.Moves text slots s) : ((rounding step q).onward r).Moves text slots s := by
  rintro t (frontier | accepted)
  · obtain ⟨u, hu, hut⟩ := List.mem_flatMap.1 (mem_distinct.1 frontier)
    have moved := h.of_mem_fresh hu
    exact moved.trans (move u t moved.within hut)
  · rcases mem_extended.1 accepted with accepted | ⟨-, ht⟩
    · exact h t (.inr accepted)
    · exact h.of_mem_fresh ht

theorem Moves.left_onward (h : r.Moves text slots s) (goes : (rounding step q).isLast r = false) :
    ((rounding step q).onward r).left text slots q < r.left text slots q := by
  have fewer : {t : MatchState | t.Within text slots} \ {t | t ∈ r.kept q} ⊆
      {t : MatchState | t.Within text slots} \ {t | t ∈ r.accepted} :=
    Set.sdiff_subset_sdiff_right fun t ht => mem_extended.2 (.inl ht)
  have finite := (MatchState.finite_within text slots).sdiff (t := {t | t ∈ r.accepted})
  simp only [left, rounding]
  by_cases past : q.min ≤ r.count
  · obtain ⟨u, hu⟩ : ∃ u, u ∈ r.fresh q := by
      rw [← List.isEmpty_eq_false_iff_exists_mem]
      exact (Bool.or_eq_false_iff.1 goes).1
    have new : u ∉ r.accepted := (mem_fresh.1 hu).2 past
    have kept : u ∈ r.kept q := mem_extended.2 (.inr ⟨past, hu⟩)
    have within : u.Within text slots := (h.of_mem_fresh hu).within
    have less := Set.ncard_lt_ncard ⟨fewer, fun all => (all ⟨within, new⟩).2 kept⟩ finite
    omega
  · have le := Set.ncard_le_ncard fewer finite
    omega

end RoundState

variable (move : ∀ s t, s.Within text slots → t ∈ step s → s.Moves text slots t)
  (hs : s.Within text slots)
include move hs

theorem exists_leavesIn_rounding (q : Quantifier) :
    ∃ passes last, (rounding step q).LeavesIn passes (.start s) last ∧
      passes ≤ q.min + {t : MatchState | t.Within text slots}.ncard + 1 := by
  obtain ⟨passes, last, leaves, le⟩ := Loop.exists_leavesIn (RoundState.left text slots q)
    (fun r (h : r.Moves text slots s) goes => ⟨h.onward move, h.left_onward goes⟩)
    (RoundState.moves_start hs)
  have all : (RoundState.start s).left text slots q =
      q.min + {t : MatchState | t.Within text slots}.ncard := by
    simp [RoundState.left, RoundState.start]
  exact ⟨passes, last, leaves, all ▸ le⟩

theorem moves_of_visits (visited : (rounding step q).Visits (.start s) r) :
    r.Moves text slots s :=
  visited.keeps (fun _ h _ => h.onward move) (RoundState.moves_start hs)

end

/-! ## Copies -/

/-- What a pass of the loop over the copies of a unit begins with. -/
structure CopyState where
  count : Nat
  position : Nat

def copying (text : Array Char) (q : Quantifier) (unit : List Char) : Loop CopyState where
  isLast c := unit.isEmpty || (q.exhausted c.count || !spells text c.position unit)
  onward c := ⟨c.count + 1, c.position + unit.length⟩

section

variable {unit : List Char} {c last : CopyState}

theorem isLast_copying {text : Array Char} (spelled : unit ≠ []) :
    (copying text q unit).isLast c = (q.exhausted c.count || !spells text c.position unit) := by
  simp [copying, spelled]

/-- The loop that counts its rounds down lists the passes past the minimum, if it makes enough. -/
theorem mem_copyStates_of_leavesIn {text : Array Char} (spelled : unit ≠ [])
    (captures : List (Option (Nat × Nat))) {passes : Nat}
    (h : (copying text q unit).LeavesIn passes c last) {rounds : Nat} (enough : passes ≤ rounds)
    {t : MatchState} :
    t ∈ copyStates text q captures unit rounds c.count c.position ↔
      ∃ c', (copying text q unit).Visits c c' ∧ q.min ≤ c'.count ∧
        t = ⟨c'.position, captures⟩ := by
  induction h generalizing rounds with
  | @leave c left =>
      obtain ⟨rounds, rfl⟩ := Nat.exists_eq_add_of_le' enough
      rw [Loop.exists_visits_iff, left]
      rw [isLast_copying spelled] at left
      simp [copyStates, left]
  | @pass passes c last goes others ih =>
      obtain ⟨rounds, rfl⟩ := Nat.exists_eq_add_of_le' (Nat.le_of_add_left_le enough)
      rw [Loop.exists_visits_iff, goes, ← ih (Nat.le_of_succ_le_succ enough)]
      rw [isLast_copying spelled] at goes
      simp [copyStates, goes, copying]

theorem forwards_copying (inside : c.position ≤ text.length)
    (goes : (copying text.toArray q unit).isLast c = false) :
    c.position < ((copying text.toArray q unit).onward c).position ∧
      ((copying text.toArray q unit).onward c).position ≤ text.length := by
  simp only [copying, Bool.or_eq_false_iff, List.isEmpty_eq_false_iff,
    Bool.not_eq_false'] at goes ⊢
  have fits := (spells_iff.1 goes.2.2).length_le
  have := List.length_pos_iff.2 goes.1
  rw [List.length_drop] at fits
  omega

theorem exists_leavesIn_copying (q : Quantifier) (unit : List Char)
    (inside : c.position ≤ text.length) :
    ∃ passes last, (copying text.toArray q unit).LeavesIn passes c last ∧
      passes ≤ text.length - c.position + 1 := by
  refine Loop.exists_leavesIn (P := fun c : CopyState => c.position ≤ text.length)
    (fun c => text.length - c.position) (fun c inside goes => ?_) inside
  obtain ⟨forwards, inside'⟩ := forwards_copying inside goes
  exact ⟨inside', by omega⟩

theorem bounds_of_visits {c' : CopyState} (inside : c.position ≤ text.length)
    (visited : (copying text.toArray q unit).Visits c c') :
    c.position ≤ c'.position ∧ c'.position ≤ text.length := by
  refine visited.keeps (P := fun c' => c.position ≤ c'.position ∧ c'.position ≤ text.length)
    (fun d ⟨ahead, inside⟩ goes => ?_) ⟨Nat.le_refl _, inside⟩
  obtain ⟨forwards, inside'⟩ := forwards_copying inside goes
  exact ⟨by omega, inside'⟩

end

/-- Both loops of a repetition are left, whatever its body, its bounds, the text and the state in
which it begins.  The rounds are at most the minimum, one for each state over the text, and one
more, and the states on the way are not behind the first one and stay in the text.  Each copy of
a unit needs a place of its own.  So the rounds that the matcher allows are never used up. -/
theorem Node.repetition_ends (body : Node) (q : Quantifier) {text : List Char} {slots : Nat}
    {s : MatchState} (hs : s.Within text slots) :
    {t : MatchState | t.Within text slots}.Finite ∧
    (∃ passes last, (rounding (body.states text.toArray) q).LeavesIn passes (.start s) last ∧
      passes ≤ q.min + {t : MatchState | t.Within text slots}.ncard + 1 ∧
      ∀ tag, q.same = false →
        (Node.rep tag q body).states text.toArray s = (last.kept q).toList) ∧
    (∀ r, (rounding (body.states text.toArray) q).Visits (.start s) r →
      ∀ t, t ∈ r.frontier ∨ t ∈ r.accepted → s.position ≤ t.position ∧
        t.position ≤ text.length ∧ ∀ start stop, some (start, stop) ∈ t.captures →
          start ≤ stop ∧ stop ≤ text.length) ∧
    ∀ unit (c : CopyState), c.position ≤ text.length →
      (∃ passes last, (copying text.toArray q unit).LeavesIn passes c last ∧
        passes ≤ text.length - c.position + 1 ∧
        ∀ captures rounds, unit ≠ [] → passes ≤ rounds → ∀ t,
          t ∈ copyStates text.toArray q captures unit rounds c.count c.position ↔
            ∃ c', (copying text.toArray q unit).Visits c c' ∧ q.min ≤ c'.count ∧
              t = ⟨c'.position, captures⟩) ∧
      ∀ c', (copying text.toArray q unit).Visits c c' →
        c.position ≤ c'.position ∧ c'.position ≤ text.length := by
  have move (s t : MatchState) (hs : s.Within text slots)
      (ht : t ∈ body.states text.toArray s) : s.Moves text slots t :=
    moves_of_mem_states hs ht
  refine ⟨MatchState.finite_within text slots, ?rounds, ?states, fun unit c inside =>
    ⟨?copies, fun c' => bounds_of_visits inside⟩⟩
  case rounds =>
    obtain ⟨passes, last, leaves, le⟩ := exists_leavesIn_rounding move hs q
    refine ⟨passes, last, leaves, le, fun tag different => ?_⟩
    have := MatchState.ncard_within_le text slots
    rw [states, if_neg (by simp [different]), hs.slots, List.size_toArray]
    exact repeatStates_of_leavesIn leaves (by omega)
  case states =>
    intro r visited t listed
    have moved := moves_of_visits move hs visited t listed
    exact ⟨moved.forwards, moved.within.position, moved.within.spans⟩
  case copies =>
    obtain ⟨passes, last, leaves, le⟩ := exists_leavesIn_copying q unit inside
    exact ⟨passes, last, leaves, le, fun captures rounds spelled enough t =>
      mem_copyStates_of_leavesIn spelled captures leaves enough⟩

/-- The body matches the empty text, and nothing bounds its repetitions. -/
theorem Node.repetition_ends_nullable :
    ∃ p tag q body, Pattern.parse "(?:(a)|)*" = .ok p ∧ p.root = .rep tag q body ∧
      q.max = none ∧ .start 1 ∈ body.states #['a'] (.start 1) ∧
      ∃ passes last, (rounding (body.states #['a']) q).LeavesIn passes (.start (.start 1)) last ∧
        passes ≤ {t : MatchState | t.Within ['a'] 2}.ncard + 1 ∧
        p.root.states #['a'] (.start 1) = (last.kept q).toList := by
  have parsed : Pattern.parse "(?:(a)|)*" = .ok _ := rfl
  obtain ⟨-, ⟨passes, last, leaves, le, result⟩, -⟩ :=
    repetition_ends _ _ (MatchState.within_start ['a'] 1)
  exact ⟨_, _, _, _, parsed, rfl, rfl, by decide, passes, last, leaves, by simpa using le,
    result _ rfl⟩

end PatternSampler
