import Mathlib.Data.List.Forall2
import PatternSampler.Proofs.Phrase.Stamps

/-!
# Marks of repetitions alone

A marker in front of a piece marks all nodes of the piece, so a node is marked without the
nodes under it only if it repeats and its own quantifier stands behind a marker.
-/

namespace PatternSampler

/-- For each node its quantifier, if it has one that stands behind a marker. -/
def Tally.ownMarks : Tally (Option Quantifier) where
  node _ := none
  rep _ own quantifier := if own then some quantifier else none
  opening _ := []

theorem Tally.counts_ownMarks : ownMarks.Counts fun _ => true :=
  ⟨fun _ => rfl, fun _ _ _ => rfl, fun _ => rfl⟩

/-- The nodes under a marked node are marked, unless its mark is that of its quantifier. -/
def Node.Shares (n : Node) (own : Option Quantifier) : Prop :=
  n.marked = true → (∀ m ∈ n.nodes, m.marked = true) ∨
    ∃ quantifier, own = some quantifier ∧ n.quantifier? = some quantifier

theorem Node.Shares.above {n : Node} {own : Option Quantifier} (h : n.Shares own)
    {owns : List (Option Quantifier)}
    (below : List.Forall₂ Node.Shares (n.children.flatMap Node.nodes) owns) :
    List.Forall₂ Node.Shares n.nodes (owns ++ [own]) := by
  rw [Node.nodes_eq]
  exact List.rel_append below (.cons h .nil)

theorem Numbering.shares_join (s : Numbering) {marked : Bool} {joint : Joint} {ns : List Node}
    {owns : List (Option Quantifier)}
    (below : List.Forall₂ Node.Shares (ns.flatMap Node.nodes) owns)
    (whole : marked = true → ∀ m ∈ (s.join marked joint ns).1.nodes, m.marked = true) :
    List.Forall₂ Node.Shares (s.join marked joint ns).1.nodes
      (owns ++ Tally.ownMarks.jointOf marked ns.length) := by
  rcases s.join_cases marked joint ns with ⟨n, rfl, join⟩ | ⟨several, join⟩ <;>
    rw [join] at whole ⊢
  · simpa [Tally.jointOf] using below
  · have own : ((s.node marked (joint.node · ns)).1.Shares none) := fun set =>
      .inl (whole (by simpa [node, Node.marked] using set))
    rw [Tally.jointOf, if_neg several]
    exact own.above (by simpa [node] using below)

namespace Phrase

theorem marked_number (p : Phrase) (marked : Bool) (s : Numbering) (set : marked = true) :
    ∀ n ∈ (p.number marked s).1.nodes, n.marked = true := by
  intro n hn
  have listed : n.stamp ∈ p.tally .stamps marked :=
    stamps_number p marked s ▸ List.mem_map_of_mem hn
  rw [set, stamps_true false, List.mem_map] at listed
  obtain ⟨stamp, -, same⟩ := listed
  exact (congrArg Stamp.marked same).symm

theorem shares_numberEach {ps : List Phrase}
    (ih : ∀ p ∈ ps, ∀ (marked : Bool) (s : Numbering),
      List.Forall₂ Node.Shares (p.number marked s).1.nodes (p.tally .ownMarks marked))
    (marked : Bool) (s : Numbering) :
    List.Forall₂ Node.Shares ((numberEach marked ps s).1.flatMap Node.nodes)
      (tallyEach .ownMarks marked ps) := by
  induction ps generalizing s with
  | nil => exact .nil
  | cons p rest ihrest =>
      obtain ⟨hp, hrest⟩ := List.forall_mem_cons.1 ih
      rw [numberEach, List.flatMap_cons, tallyEach]
      exact List.rel_append (hp marked s) (ihrest hrest _)

theorem shares_number (p : Phrase) (marked : Bool) (s : Numbering) :
    List.Forall₂ Node.Shares (p.number marked s).1.nodes (p.tally .ownMarks marked) := by
  have above {n body : Node} {owns : List (Option Quantifier)} {own : Option Quantifier}
      (child : n.children = [body]) (below : List.Forall₂ Node.Shares body.nodes owns)
      (h : n.Shares own) : List.Forall₂ Node.Shares n.nodes (owns ++ [own]) :=
    h.above (by simpa [child] using below)
  induction p generalizing marked s with
  | text chars => exact .cons (fun set => .inl ((text chars).marked_number marked s set)) .nil
  | set members =>
      exact .cons (fun set => .inl ((Phrase.set members).marked_number marked s set)) .nil
  | reference index =>
      have whole := (reference index).marked_number marked s
      rw [number] at whole ⊢
      split <;> rename_i known <;> rw [known] at whole
      · exact .cons (fun set => .inl (whole set)) .nil
      · exact .cons (fun set => .inl (whole set)) .nil
  | group body ih =>
      exact above rfl (ih marked s) fun set => .inl ((group body).marked_number marked s set)
  | capture index name body ih =>
      exact above rfl (ih marked s) fun set =>
        .inl ((capture index name body).marked_number marked s set)
  | rep own quantifier body ih =>
      refine above rfl (ih marked s) fun set => ?_
      rcases Bool.or_eq_true_iff.1 set with outer | rfl
      · exact .inl ((rep own quantifier body).marked_number marked s outer)
      · exact .inr ⟨quantifier, rfl, rfl⟩
  | marked piece ih => exact ih true s
  | branch ps ih =>
      rw [tally, ← length_numberEach marked ps s]
      exact Numbering.shares_join _ (shares_numberEach ih marked s)
        ((branch ps).marked_number marked s)
  | choice ps ih =>
      rw [tally, ← length_numberEach marked ps s]
      exact Numbering.shares_join _ (shares_numberEach ih marked s)
        ((choice ps).marked_number marked s)

theorem exists_shares {p : Phrase} {marked : Bool} {s : Numbering} {n : Node} {i : Nat}
    (listed : (p.number marked s).1.nodes[i]? = some n) :
    ∃ own, (p.tally .ownMarks marked)[i]? = some own ∧ n.Shares own := by
  have shares := p.shares_number marked s
  obtain ⟨inside, rfl⟩ := List.getElem?_eq_some_iff.1 listed
  have inside' : i < (p.tally .ownMarks marked).length := shares.length_eq ▸ inside
  exact ⟨_, List.getElem?_eq_getElem inside', shares.get inside inside'⟩

end Phrase

namespace Reader

variable {r s : Reader} {i : Nat} {t : Token}

theorem waiting_step (h : r.step i t = .ok s) (waits : s.waiting.isMarked = true) :
    t = .marker := by
  cases step_eq_ok.1 h with
  | marker => rfl
  | literal | atom | quantifier => cases waits
  | opening kind => cases kind <;> cases waits
  | closing waiting groups =>
      rw [closeGroup, waiting] at waits
      cases waits
  | bar waiting =>
      rw [waiting] at waits
      cases waits

theorem exists_of_waiting {ts : List Token} (taken : start.advance? ts = some r)
    (waits : r.waiting.isMarked = true) : ∃ before, ts = before ++ [.marker] := by
  rcases List.eq_nil_or_concat ts with rfl | ⟨before, t, rfl⟩
  · cases taken
    cases waits
  · rw [List.concat_eq_append, advance?_append, Option.bind_eq_some_iff] at taken
    obtain ⟨u, -, taken⟩ := taken
    obtain ⟨s, step, ends⟩ := advance?_cons_eq_some.1 taken
    cases ends
    exact ⟨before, by rw [List.concat_eq_append, waiting_step step waits]⟩

theorem notes_quantifier (r : Reader) (q : Quantifier) : ∃ before,
    (∀ own ∈ before, own = none) ∧ r.notes .ownMarks (.quantifier (.ok q)) =
      before ++ [if r.marks then some q else none] := by
  rw [notes]
  split
  · exact ⟨[none], by simp, rfl⟩
  · exact ⟨[], by simp, rfl⟩

theorem of_getElem?_concat {before : List (Option Quantifier)} {last : Option Quantifier}
    {q : Quantifier} {j : Nat} (plain : ∀ own ∈ before, own = none)
    (noted : (before ++ [last])[j]? = some (some q)) : last = some q ∧ before.length = j := by
  rcases Nat.lt_trichotomy j before.length with inside | rfl | outside
  · rw [List.getElem?_append_left inside] at noted
    cases plain _ (List.mem_of_getElem? noted)
  · exact ⟨by simpa using noted, rfl⟩
  · rw [List.getElem?_eq_none (by simpa using Nat.succ_le_of_lt outside)] at noted
    cases noted

theorem notes_ownMarks {q : Quantifier} {j : Nat}
    (noted : (r.notes .ownMarks t)[j]? = some (some q)) :
    t = .quantifier (.ok q) ∧ r.waiting.isMarked = true ∧
      (r.notes .ownMarks t).length = j + 1 := by
  have listed := List.mem_of_getElem? noted
  cases t with
  | literal c =>
      rw [notes] at listed
      split at listed
      · cases listed
      · cases List.mem_singleton.1 listed
  | marker | invalid => cases listed
  | set | anchor | reference => cases List.mem_singleton.1 listed
  | guid =>
      have plain (outer : Bool) : ∀ own ∈ Phrase.guid.tally .ownMarks outer, own = none := by
        cases outer <;> decide
      cases plain _ _ listed
  | opening kind => cases kind <;> cases listed
  | closing =>
      simp only [notes, List.mem_append] at listed
      rcases listed with listed | listed
      · cases Level.of_mem_joints listed
      · cases List.mem_singleton.1 listed
  | bar => cases Tally.of_mem_jointOf _ listed
  | quantifier bounds =>
      cases bounds with
      | error e => cases listed
      | ok q' =>
          obtain ⟨before, plain, eq⟩ := r.notes_quantifier q'
          rw [eq] at noted ⊢
          obtain ⟨own, place⟩ := of_getElem?_concat plain noted
          split at own <;> rename_i marked
          · cases own
            have waits := (Bool.and_eq_true_iff.1 marked).1
            exact ⟨rfl, waits, by rw [List.length_append, place, List.length_singleton]⟩
          · cases own

/-- The node is the repetition that a quantifier behind a marker of its own completes. -/
def OwnsMark (ts : List Token) (q : Quantifier) (id : Nat) : Prop :=
  ∃ before rest u s, ts = before ++ .marker :: .quantifier (.ok q) :: rest ∧
    start.advance? (before ++ [.marker]) = some u ∧ u.advance? [.quantifier (.ok q)] = some s ∧
    s.completed = id + 1

theorem ownsMark_of_noted {ts : List Token} (taken : start.advance? ts = some r)
    {q : Quantifier} {id : Nat} (noted : (r.tally .ownMarks)[id]? = some (some q)) :
    OwnsMark ts q id := by
  obtain ⟨before, t, rest, u, s, j, rfl, read, step, -, place, noted⟩ :=
    exists_step_of_noted _ taken noted
  obtain ⟨rfl, waits, length⟩ := notes_ownMarks noted
  obtain ⟨first, rfl⟩ := exists_of_waiting read waits
  refine ⟨first, rest, u, s, by simp, read, advance?_cons_eq_some.2 ⟨s, step, rfl⟩, ?_⟩
  rw [← countP_tally Tally.counts_ownMarks, tally_step _ step, List.countP_true,
    List.length_append, length, place, Nat.add_assoc]

theorem ownsMark_of_finished {ts : List Token} (taken : start.advance? ts = some r)
    (groups : r.groups = []) {q : Quantifier} {id : Nat}
    (noted : (r.level.toPhrase.tally .ownMarks false)[id]? = some (some q)) : OwnsMark ts q id := by
  rw [tally_finished _ groups] at noted
  rcases Nat.lt_or_ge id (r.tally .ownMarks).length with inside | after
  · rw [List.getElem?_append_left inside] at noted
    exact ownsMark_of_noted taken noted
  · rw [List.getElem?_append_right after] at noted
    cases Level.of_mem_joints (List.mem_of_getElem? noted)

end Reader

end PatternSampler
