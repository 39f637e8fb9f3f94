import PatternSampler.Matching.Basic
import PatternSampler.Proofs.Pattern.WellFormed

/-!
# What a match is

A node leads from one match state to another when a match of it can begin in the first
and end in the second.  This is said without any search: a repetition is a chain of
matches of its body, as long as the quantifier allows.  Matches only move forwards, and
they keep a state inside the text.
-/

namespace PatternSampler

inductive Rounds (R : MatchState → MatchState → Prop) : Nat → MatchState → MatchState → Prop
  | zero (s : MatchState) : Rounds R 0 s s
  | succ {k : Nat} {s u t : MatchState} (first : R s u) (others : Rounds R k u t) :
      Rounds R (k + 1) s t

def Reads (text chars : List Char) (s t : MatchState) : Prop :=
  chars <+: text.drop s.position ∧ t = s.advance chars.length

namespace Node

mutual

/-- A match of the node that begins in `s` can end in `t`. -/
def Leads (text : List Char) : Node → MatchState → MatchState → Prop
  | .text _ chars, s, t => Reads text chars s t
  | set _ members, s, t => ∃ c, members.contains c = true ∧ Reads text [c] s t
  | rep _ quantifier body, s, t =>
      match quantifier.same with
      | false => ∃ k, quantifier.Allows k ∧ Rounds (Leads text body) k s t
      | true => (quantifier.Allows 0 ∧ t = s) ∨
          -- the first repetition, and as many copies of what it spells as are left
          ∃ k u, quantifier.Allows (k + 1) ∧ Leads text body s u ∧
            Reads text (List.replicate k (text.extract s.position u.position)).flatten u t
  | seq _ children, s, t => LeadsAfter text children s t
  | alt _ children, s, t => LeadsAmong text children s t
  | group _ body, s, t => Leads text body s t
  | capture _ index _ body, s, t =>
      ∃ u, Leads text body s u ∧ index < u.captures.length ∧ t = u.record index s.position
  | backref _ _ index _, s, t =>
      (s.captures[index]? = some none ∧ t = s) ∨
        ∃ start stop, s.captures[index]? = some (some (start, stop)) ∧
          Reads text (text.extract start stop) s t

def LeadsAfter (text : List Char) : List Node → MatchState → MatchState → Prop
  | [], s, t => t = s
  | n :: rest, s, t => ∃ u, Leads text n s u ∧ LeadsAfter text rest u t

def LeadsAmong (text : List Char) : List Node → MatchState → MatchState → Prop
  | [], _, _ => False
  | n :: rest, s, t => Leads text n s t ∨ LeadsAmong text rest s t

end

theorem leadsAmong_iff {text : List Char} {ns : List Node} {s t : MatchState} :
    LeadsAmong text ns s t ↔ ∃ n ∈ ns, n.Leads text s t := by
  induction ns with
  | nil => simp [LeadsAmong]
  | cons n rest ih => simp [LeadsAmong, ih]

end Node

def Pattern.Accepts (p : Pattern) (text : List Char) : Prop :=
  ∃ t, p.root.Leads text (.start p.captureCount) t ∧ t.position = text.length

section

variable {text a b : List Char} {s t : MatchState}

theorem MatchState.advance_advance (s : MatchState) (m n : Nat) :
    (s.advance m).advance n = s.advance (m + n) := by
  simp [advance, Nat.add_assoc]

@[simp] theorem reads_nil : Reads text [] s t ↔ t = s := by
  simp [Reads, MatchState.advance]

theorem append_isPrefix_iff {l : List Char} : a ++ b <+: l ↔ a <+: l ∧ b <+: l.drop a.length := by
  constructor
  · rintro ⟨rest, rfl⟩
    simp [List.append_assoc]
  · rintro ⟨⟨rest, rfl⟩, h⟩
    simpa using h

theorem reads_append :
    Reads text (a ++ b) s t ↔ a <+: text.drop s.position ∧ Reads text b (s.advance a.length) t := by
  simp only [Reads, append_isPrefix_iff, List.drop_drop, List.length_append,
    MatchState.advance_advance, and_assoc]
  rfl

end

/-- A state that can come up over the text with that many slots for captures. -/
structure MatchState.Within (text : List Char) (slots : Nat) (s : MatchState) : Prop where
  position : s.position ≤ text.length
  slots : s.captures.length = slots
  spans : ∀ start stop, some (start, stop) ∈ s.captures → start ≤ stop ∧ stop ≤ text.length

variable {text : List Char} {slots : Nat} {s t : MatchState}

theorem MatchState.within_start (text : List Char) (captureCount : Nat) :
    (start captureCount).Within text (captureCount + 1) where
  position := Nat.zero_le _
  slots := by simp [start]
  spans := by simp [start]

theorem MatchState.Within.record (ht : t.Within text slots) {index start : Nat}
    (le : start ≤ t.position) : (t.record index start).Within text slots where
  position := ht.position
  slots := by simp [MatchState.record, ht.slots]
  spans from_ to_ h := by
    rcases List.mem_or_eq_of_mem_set h with h | h
    · exact ht.spans _ _ h
    · cases h
      exact ⟨le, ht.position⟩

structure MatchState.Moves (text : List Char) (slots : Nat) (s t : MatchState) : Prop where
  forwards : s.position ≤ t.position
  within : t.Within text slots

theorem Reads.moves {chars : List Char} (h : Reads text chars s t) (hs : s.Within text slots) :
    s.Moves text slots t := by
  obtain ⟨standing, rfl⟩ := h
  have fits := standing.length_le
  have inside := hs.position
  rw [List.length_drop] at fits
  have position : s.position + chars.length ≤ text.length := by omega
  exact ⟨Nat.le_add_right _ _, position, hs.slots, hs.spans⟩

theorem MatchState.Moves.refl (hs : s.Within text slots) : s.Moves text slots s :=
  ⟨Nat.le_refl _, hs⟩

theorem MatchState.Moves.trans {u : MatchState} (first : s.Moves text slots u)
    (second : u.Moves text slots t) : s.Moves text slots t :=
  ⟨Nat.le_trans first.forwards second.forwards, second.within⟩

theorem Rounds.moves {R : MatchState → MatchState → Prop} {k : Nat} (h : Rounds R k s t)
    (step : ∀ s t, s.Within text slots → R s t → s.Moves text slots t)
    (hs : s.Within text slots) : s.Moves text slots t := by
  induction h with
  | zero s => exact .refl hs
  | succ first others ih =>
      have hfirst := step _ _ hs first
      exact hfirst.trans (ih hfirst.within)

theorem Rounds.imp {R R' : MatchState → MatchState → Prop} {k : Nat} (h : Rounds R k s t)
    (step : ∀ s t, s.Within text slots → R s t → s.Moves text slots t)
    (also : ∀ s t, s.Within text slots → R s t → R' s t) (hs : s.Within text slots) :
    Rounds R' k s t := by
  induction h with
  | zero s => exact .zero s
  | succ first _ ih =>
      apply Rounds.succ (also _ _ hs first)
      exact ih (step _ _ hs first).within

theorem Node.LeadsAfter.moves {ns : List Node} (h : LeadsAfter text ns s t)
    (step : ∀ n ∈ ns, ∀ s t, s.Within text slots → n.Leads text s t → s.Moves text slots t)
    (hs : s.Within text slots) : s.Moves text slots t := by
  induction ns generalizing s with
  | nil =>
      cases h
      exact .refl hs
  | cons n rest ih =>
      obtain ⟨hn, hrest⟩ := List.forall_mem_cons.1 step
      obtain ⟨u, first, others⟩ := h
      have hfirst := hn _ _ hs first
      exact hfirst.trans (ih others hrest hfirst.within)

theorem Node.Leads.moves {n : Node} (h : n.Leads text s t) (hs : s.Within text slots) :
    s.Moves text slots t := by
  induction n generalizing s t with
  | text tag chars => exact Reads.moves h hs
  | set tag members =>
      obtain ⟨c, -, reads⟩ := h
      exact reads.moves hs
  | rep tag quantifier body ih =>
      rw [Node.Leads] at h
      split at h
      · obtain ⟨k, -, rounds⟩ := h
        exact rounds.moves (fun s t hs h => ih h hs) hs
      · rcases h with ⟨-, rfl⟩ | ⟨k, u, -, first, copies⟩
        · exact .refl hs
        · have hfirst := ih first hs
          exact hfirst.trans (copies.moves hfirst.within)
  | seq tag children ih => exact LeadsAfter.moves h (fun n hn s t hs h => ih n hn h hs) hs
  | alt tag children ih =>
      obtain ⟨n, hn, hlead⟩ := leadsAmong_iff.1 h
      exact ih n hn hlead hs
  | group tag body ih => exact ih h hs
  | capture tag index name body ih =>
      obtain ⟨u, hlead, -, rfl⟩ := h
      have hu := ih hlead hs
      exact ⟨hu.forwards, hu.within.record hu.forwards⟩
  | backref tag target index body _ =>
      rcases h with ⟨-, rfl⟩ | ⟨start, stop, -, reads⟩
      · exact .refl hs
      · exact reads.moves hs

end PatternSampler
