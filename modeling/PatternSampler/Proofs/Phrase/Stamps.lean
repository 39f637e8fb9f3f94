import Mathlib.Data.List.Basic
import PatternSampler.Proofs.Phrase.Tally
import PatternSampler.Proofs.Phrase.Unmarked

/-!
# Stamps

A stamp tells of one node whether it is marked and how often it repeats, if it does.  There is
one stamp for each node, so they tell how many nodes a reader has completed.
-/

namespace PatternSampler

structure Stamp where
  marked : Bool
  quantifier? : Option Quantifier

def Stamp.mark (s : Stamp) : Stamp := { s with marked := true }

def Node.quantifier? : Node → Option Quantifier
  | .rep _ quantifier _ => some quantifier
  | _ => none

def Node.stamp (n : Node) : Stamp := ⟨n.marked, n.quantifier?⟩

def Tally.stamps : Tally Stamp where
  node marked := ⟨marked, none⟩
  rep outer own quantifier := ⟨outer || own, some quantifier⟩
  opening _ := []

@[simp] theorem Tally.node_stamps (marked : Bool) : stamps.node marked = ⟨marked, none⟩ := rfl

@[simp] theorem Tally.rep_stamps (outer own : Bool) (q : Quantifier) :
    stamps.rep outer own q = ⟨outer || own, some q⟩ := rfl

@[simp] theorem Tally.opening_stamps (capture : Option (Nat × Option String)) :
    stamps.opening capture = [] := rfl

theorem Node.tally_stamps (n : Node) : n.tally .stamps = n.nodes.map Node.stamp := by
  induction n using inductOwned with
  | node n ih =>
      have below : (n.children.flatMap nodes).map stamp = n.children.flatMap (tally .stamps) := by
        rw [List.map_flatMap]
        exact (List.flatMap_congr ih).symm
      rw [nodes_eq, List.map_append, below]
      cases n <;> simp [tally, tallyEach_eq, children, stamp, quantifier?, marked, tag]

namespace Phrase

theorem stamps_number (p : Phrase) (marked : Bool) (s : Numbering) :
    (p.number marked s).1.nodes.map Node.stamp = p.tally .stamps marked := by
  have either (outer own : Bool) (q : Quantifier) :
      Tally.stamps.rep outer own q = Tally.stamps.rep (outer || own) false q := by
    simp
  rw [← Node.tally_stamps, p.tally_number _ either]

theorem joint_true (outer : Bool) (parts : Nat) :
    Tally.stamps.jointOf true parts = (Tally.stamps.jointOf outer parts).map Stamp.mark := by
  unfold Tally.jointOf
  split <;> rfl

theorem stamps_true (outer : Bool) (p : Phrase) :
    p.tally .stamps true = (p.tally .stamps outer).map Stamp.mark := by
  have each {ps : List Phrase}
      (ih : ∀ p ∈ ps, ∀ outer, p.tally .stamps true = (p.tally .stamps outer).map Stamp.mark)
      (outer : Bool) :
      tallyEach .stamps true ps = (tallyEach .stamps outer ps).map Stamp.mark := by
    rw [tallyEach_eq, tallyEach_eq, List.map_flatMap]
    exact List.flatMap_congr fun p hp => ih p hp outer
  induction p generalizing outer with
  | text | set | reference => rfl
  | group body ih | capture index name body ih | rep own quantifier body ih =>
      simp only [tally, ih outer, List.map_append]
      rfl
  | marked piece ih => exact ih true
  | branch ps ih | choice ps ih =>
      simp only [tally, List.map_append, each ih outer, joint_true outer]

theorem any_marked_stamps (outer : Bool) (p : Phrase) :
    (p.tally .stamps outer).any (·.marked) = (outer || p.hasMarker) := by
  have each {ps : List Phrase}
      (ih : ∀ p ∈ ps, ∀ outer, (p.tally .stamps outer).any (·.marked) = (outer || p.hasMarker))
      (outer : Bool) :
      (tallyEach .stamps outer ps ++ Tally.stamps.jointOf outer ps.length).any (·.marked) =
        (outer || hasMarkerIn ps) := by
    have parts : (tallyEach .stamps outer ps).any (·.marked) =
        ps.any fun p => outer || p.hasMarker := by
      rw [tallyEach_eq, List.any_flatMap, Bool.eq_iff_iff, List.any_eq_true, List.any_eq_true]
      exact exists_congr fun p => and_congr_right fun hp => by rw [ih p hp outer]
    rw [List.any_append, parts, hasMarkerIn_eq]
    match ps with
    | [p] => simp [Tally.jointOf]
    | [] | p :: q :: rest => cases outer <;> simp [Tally.jointOf]
  induction p generalizing outer with
  | text | set | reference => simp [tally, hasMarker]
  | group body ih | capture index name body ih =>
      cases outer <;> simp [tally, hasMarker, ih]
  | rep own quantifier body ih =>
      cases outer <;> simp [tally, hasMarker, ih, Bool.or_comm]
  | marked piece ih => simp [tally, hasMarker, ih]
  | branch ps ih | choice ps ih => exact each ih outer

end Phrase

theorem Level.joints_true (outer : Bool) (l : Level) :
    l.joints .stamps true = (l.joints .stamps outer).map Stamp.mark := by
  rw [joints, joints, List.map_append, ← Phrase.joint_true, ← Phrase.joint_true]

def Reader.completed (r : Reader) : Nat := (r.tally .stamps).length

variable {α : Type} {T : Tally α} {f : α → Bool}

theorem countP_flatMap_eq_length {ι γ : Type} {parts : List ι} {notes : ι → List α}
    {listed : ι → List γ} (h : ∀ i ∈ parts, (notes i).countP f = (listed i).length) :
    (parts.flatMap notes).countP f = (parts.flatMap listed).length := by
  rw [List.countP_flatMap, List.length_flatMap]
  exact congrArg List.sum (List.map_congr_left h)

/-- What is noted for nodes is what `f` tells, and nothing else is. -/
structure Tally.Counts (T : Tally α) (f : α → Bool) : Prop where
  node : ∀ marked, f (T.node marked) = true
  rep : ∀ outer own quantifier, f (T.rep outer own quantifier) = true
  opening : ∀ capture, (T.opening capture).countP f = 0

section

variable (h : T.Counts f)

include h

theorem Tally.Counts.jointOf (outer : Bool) (parts : Nat) :
    (T.jointOf outer parts).countP f = (Tally.stamps.jointOf outer parts).length := by
  unfold Tally.jointOf
  split
  · rfl
  · simp [h.node]

theorem Phrase.countP_tally (p : Phrase) (outer : Bool) :
    (p.tally T outer).countP f = (p.tally .stamps outer).length := by
  have each {ps : List Phrase}
      (ih : ∀ p ∈ ps, ∀ outer, (p.tally T outer).countP f = (p.tally .stamps outer).length)
      (outer : Bool) : (tallyEach T outer ps).countP f = (tallyEach .stamps outer ps).length := by
    rw [tallyEach_eq, tallyEach_eq]
    exact countP_flatMap_eq_length fun p hp => ih p hp outer
  induction p generalizing outer with
  | text | set | reference => simp [tally, h.node]
  | group body ih | capture index name body ih =>
      simp [tally, List.countP_append, h.opening, h.node, ih outer]
  | rep own quantifier body ih => simp [tally, List.countP_append, h.rep, ih outer]
  | marked piece ih => exact ih true
  | branch ps ih | choice ps ih =>
      rw [tally, tally, List.countP_append, List.length_append, each ih outer, h.jointOf outer]

theorem Reader.countP_tally (r : Reader) : (r.tally T).countP f = r.completed := by
  have level (l : Level) (outer : Bool) :
      (l.tally T outer).countP f = (l.tally .stamps outer).length :=
    countP_flatMap_eq_length fun p _ => p.countP_tally h outer
  have around (gs : List OpenGroup) :
      (outerTally T gs).countP f = (outerTally .stamps gs).length := by
    induction gs with
    | nil => rfl
    | cons g gs ih => simp [outerTally, ih, level, h.opening]
  rw [tally, completed, tally, List.countP_append, List.length_append, around, level]

end

end PatternSampler
