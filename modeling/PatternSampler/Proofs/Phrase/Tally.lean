import Mathlib.Data.List.Induction
import PatternSampler.Proofs.Phrase.Advance
import PatternSampler.Proofs.Phrase.Numbering

/-!
# Tallies

A tally notes something for each node of a phrase as it is completed, and where a group opens.
The tree of the phrase is noted in the same order.  A reader that keeps the tally of what it
holds only ever adds to it, and what it adds depends on the token and on its own state.
-/

namespace PatternSampler

/-- What is noted for a node that does not repeat, for a repetition, and where a group opens.
A node is marked from outside, and a repetition may have a marker of its own. -/
structure Tally (α : Type) where
  node (marked : Bool) : α
  rep (outer own : Bool) (quantifier : Quantifier) : α
  opening (capture : Option (Nat × Option String)) : List α

variable {α : Type} (T : Tally α)

/-- What is noted for the node that holds several parts together. -/
def Tally.jointOf (outer : Bool) (parts : Nat) : List α := if parts = 1 then [] else [T.node outer]

theorem Tally.of_mem_jointOf {outer : Bool} {parts : Nat} {a : α}
    (noted : a ∈ T.jointOf outer parts) : a = T.node outer := by
  unfold jointOf at noted
  split at noted
  · cases noted
  · exact List.mem_singleton.1 noted

namespace Phrase

mutual

def tally (outer : Bool) : Phrase → List α
  | text _ | set _ | reference _ => [T.node outer]
  | group body => T.opening none ++ tally outer body ++ [T.node outer]
  | capture index name body =>
      T.opening (some (index, name)) ++ tally outer body ++ [T.node outer]
  | rep own quantifier body => tally outer body ++ [T.rep outer own quantifier]
  | marked piece => tally true piece
  | branch pieces => tallyEach outer pieces ++ T.jointOf outer pieces.length
  | choice branches => tallyEach outer branches ++ T.jointOf outer branches.length

def tallyEach (outer : Bool) : List Phrase → List α
  | [] => []
  | p :: rest => tally outer p ++ tallyEach outer rest

end

theorem tallyEach_eq (outer : Bool) (ps : List Phrase) :
    tallyEach T outer ps = ps.flatMap (tally T outer) := by
  induction ps with
  | nil => rfl
  | cons p rest ih => simp [tallyEach, ih]

@[simp] theorem tally_markedIf (outer isMarked : Bool) (p : Phrase) :
    (markedIf isMarked p).tally T outer = p.tally T (outer || isMarked) := by
  cases isMarked <;> simp [markedIf, tally]

theorem tally_ne_nil (outer : Bool) (p : Phrase) : p.tally T outer ≠ [] := by
  have held {ps : List Phrase} (ih : ∀ p ∈ ps, ∀ outer, p.tally T outer ≠ []) (outer : Bool) :
      tallyEach T outer ps ++ T.jointOf outer ps.length ≠ [] := by
    match ps with
    | [] => simp [tallyEach, Tally.jointOf]
    | [p] => simpa [tallyEach, Tally.jointOf] using ih p (List.mem_singleton_self p) outer
    | p :: q :: rest => simp [Tally.jointOf]
  induction p generalizing outer with
  | text | set | reference => exact List.cons_ne_nil _ _
  | group | capture | rep => exact List.append_ne_nil_of_right_ne_nil _ (List.cons_ne_nil _ _)
  | marked piece ih => exact ih true
  | branch ps ih | choice ps ih => exact held ih outer

end Phrase

namespace Node

mutual

def tally : Node → List α
  | text tag _ | set tag _ | backref tag .. => [T.node tag.marked]
  | rep tag quantifier body => tally body ++ [T.rep tag.marked false quantifier]
  | seq tag children => tallyEach children ++ [T.node tag.marked]
  | alt tag children => tallyEach children ++ [T.node tag.marked]
  | group tag body => T.opening none ++ tally body ++ [T.node tag.marked]
  | capture tag index name body =>
      T.opening (some (index, name)) ++ tally body ++ [T.node tag.marked]

def tallyEach : List Node → List α
  | [] => []
  | n :: rest => tally n ++ tallyEach rest

end

theorem tallyEach_eq (ns : List Node) : tallyEach T ns = ns.flatMap (tally T) := by
  induction ns with
  | nil => rfl
  | cons n rest ih => simp [tallyEach, ih]

theorem tally_joint (joint : Joint) (tag : Tag) (ns : List Node) :
    (joint.node tag ns).tally T = ns.flatMap (tally T) ++ [T.node tag.marked] := by
  cases joint <;> cases ns <;> simp [Joint.node, tally, tallyEach_eq]

end Node

theorem Numbering.tally_join (s : Numbering) (marked : Bool) (joint : Joint) (ns : List Node) :
    (s.join marked joint ns).1.tally T =
      ns.flatMap (Node.tally T) ++ T.jointOf marked ns.length := by
  rcases s.join_cases marked joint ns with ⟨n, rfl, join⟩ | ⟨several, join⟩ <;> rw [join]
  · simp [Tally.jointOf]
  · rw [node, Node.tally_joint, Tally.jointOf, if_neg several]

namespace Phrase

theorem tally_numberEach {ps : List Phrase}
    (ih : ∀ p ∈ ps, ∀ (marked : Bool) (s : Numbering),
      (p.number marked s).1.tally T = p.tally T marked)
    (marked : Bool) (s : Numbering) :
    (numberEach marked ps s).1.flatMap (Node.tally T) = tallyEach T marked ps := by
  induction ps generalizing s with
  | nil => rfl
  | cons p rest ihrest =>
      obtain ⟨hp, hrest⟩ := List.forall_mem_cons.1 ih
      simp only [numberEach, tallyEach, List.flatMap_cons, hp, ihrest hrest]

/-- A tree shows that a repetition is marked, but not by which marker. -/
theorem tally_number (either : ∀ outer own q, T.rep outer own q = T.rep (outer || own) false q)
    (p : Phrase) (marked : Bool) (s : Numbering) :
    (p.number marked s).1.tally T = p.tally T marked := by
  induction p generalizing marked s with
  | text | set => rfl
  | group body ih | capture index name body ih =>
      rw [number, tally, ← ih marked s]
      rfl
  | rep own quantifier body ih =>
      rw [number, tally, either, ← ih marked s]
      rfl
  | reference index =>
      rw [number]
      split <;> rfl
  | marked piece ih => exact ih true s
  | branch ps ih | choice ps ih =>
      rw [number, Numbering.tally_join, tally_numberEach T ih, length_numberEach, tally]

end Phrase

def underMarker (groups : List OpenGroup) : Bool := groups.any (·.marked)

theorem OpenGroup.tally_wrap (g : OpenGroup) (outer : Bool) (body : Phrase) :
    (g.wrap body).tally T outer =
      T.opening g.capture ++ body.tally T outer ++ [T.node outer] := by
  unfold OpenGroup.wrap
  split <;> rename_i kind <;> rw [kind, Phrase.tally]

/-- Whether the piece itself stands behind a marker, as far as a quantifier can tell. -/
def LastPiece.isMarked : LastPiece → Bool
  | literals marked .. | atom marked _ => marked
  | none | quantified _ => false

namespace Level

variable (outer : Bool) (l : Level)

def tally : List α := l.parts.flatMap (Phrase.tally T outer)

def width : Nat := l.pieces.length + l.last.toPiece?.toList.length

def joints : List α := T.jointOf outer l.width ++ T.jointOf outer (l.branches.length + 1)

variable {T outer l} in
theorem of_mem_joints {a : α} (noted : a ∈ l.joints T outer) : a = T.node outer := by
  rcases List.mem_append.1 noted with noted | noted <;> exact T.of_mem_jointOf noted

theorem tally_empty : Level.empty.tally T outer = [] := rfl

theorem tally_begin (last : LastPiece) :
    (l.begin last).tally T outer =
      l.tally T outer ++ last.toPiece?.toList.flatMap (Phrase.tally T outer) := by
  rw [tally, parts_begin, List.flatMap_append]
  rfl

theorem tally_endBranch :
    l.endBranch.tally T outer = l.tally T outer ++ T.jointOf outer l.width := by
  rw [tally, parts_endBranch, branches_endBranch, List.flatMap_append, List.flatMap_singleton,
    Phrase.tally, Phrase.tallyEach_eq]
  simp [tally, parts, settled, width]

theorem tally_toPhrase : l.toPhrase.tally T outer = l.tally T outer ++ l.joints T outer := by
  have count : l.endBranch.branches.reverse.length = l.branches.length + 1 := by
    simp [branches_endBranch]
  rw [toPhrase, Phrase.tally, Phrase.tallyEach_eq, count, ← parts_endBranch]
  change l.endBranch.tally T outer ++ _ = _
  rw [tally_endBranch, List.append_assoc]
  rfl

end Level

def outerTally : List OpenGroup → List α
  | [] => []
  | g :: gs => outerTally gs ++ g.outer.tally T (underMarker gs) ++ T.opening g.capture

namespace Reader

variable (r : Reader)

def tally : List α := outerTally T r.groups ++ r.level.tally T (underMarker r.groups)

/-- What a token adds to the tally of a reader that takes it. -/
def notes (t : Token) : List α :=
  let outer := underMarker r.groups
  match t with
  | .literal _ =>
      match r.waiting, r.level.last with
      | .none, .literals .. => []
      | _, _ => [T.node (outer || r.marks)]
  | .marker | .invalid _ => []
  | .set _ | .anchor | .reference _ => [T.node (outer || r.marks)]
  | .guid => Phrase.guid.tally T (outer || r.marks)
  | .opening .plain => T.opening none
  | .opening (.capturing name) => T.opening (some (r.captures + 1, name))
  | .closing => r.level.joints T outer ++ [T.node outer]
  | .bar => T.jointOf outer r.level.width
  | .quantifier (.error _) => []
  | .quantifier (.ok q) =>
      match r.level.last with
      | .literals _ (_ :: _) _ => [T.node outer, T.rep outer r.marks q]
      | last => [T.rep (outer || last.isMarked) r.marks q]

variable {r} {s : Reader}

theorem tally_begin (r : Reader) (last : LastPiece) :
    tally T { r with level := r.level.begin last, waiting := .none } =
      r.tally T ++ last.toPiece?.toList.flatMap (Phrase.tally T (underMarker r.groups)) := by
  rw [tally, Level.tally_begin, ← List.append_assoc]
  rfl

theorem tally_atom (r : Reader) (body : Phrase) :
    (r.atom body).tally T = r.tally T ++ body.tally T (underMarker r.groups || r.marks) := by
  rw [atom, tally_begin]
  simp [LastPiece.toPiece?]

theorem notes_of_run {m : Bool} {before : List Char} {c d : Char}
    (last : r.level.last = .literals m before c) (waiting : r.waiting = .none) :
    r.notes T (.literal d) = [] := by
  rw [notes, waiting, last]

theorem notes_of_begun {c : Char}
    (apart : r.waiting = .none → ∀ m before last, r.level.last ≠ .literals m before last) :
    r.notes T (.literal c) = [T.node (underMarker r.groups || r.marks)] := by
  simp only [notes]
  split
  · rename_i waiting last
    exact absurd last (apart waiting _ _ _)
  · rfl

theorem tally_literal (r : Reader) (c : Char) :
    (r.literal c).tally T = r.tally T ++ r.notes T (.literal c) := by
  rcases r.literal_cases c with ⟨waiting, m, before, d, last⟩ | ⟨apart, begins⟩
  · rw [literal_of_run last waiting, notes_of_run T last waiting]
    simp [tally, Level.tally, Level.parts, Level.settled, last, LastPiece.toPiece?, Phrase.tally]
  · rw [begins, tally_begin, notes_of_begun T apart]
    simp [LastPiece.toPiece?, Phrase.tally]

theorem tally_openGroup (r : Reader) (i : Nat) (kind : GroupKind) :
    (r.openGroup i kind).tally T = r.tally T ++ r.notes T (.opening kind) := by
  cases kind <;> simp [openGroup, tally, notes, outerTally, Level.tally_empty]

theorem tally_closeGroup {g : OpenGroup} {gs : List OpenGroup} (groups : r.groups = g :: gs) :
    (r.closeGroup g gs).tally T = r.tally T ++ r.notes T .closing := by
  have inside : (underMarker gs || g.marked) = underMarker r.groups := by
    rw [groups]
    exact Bool.or_comm _ _
  have around : outerTally T r.groups =
      outerTally T gs ++ g.outer.tally T (underMarker gs) ++ T.opening g.capture := by
    rw [groups]
    rfl
  rw [closeGroup, tally, tally, notes, Level.tally_begin, around]
  simp [LastPiece.toPiece?, inside, OpenGroup.tally_wrap, Level.tally_toPhrase]

theorem tally_quantifier {marked : Bool} {level : Level} {body : Phrase} (q : Quantifier)
    (takes : r.Takes marked level body) :
    tally T { r with
      level := { level with last := .quantified (.markedIf marked (.rep r.marks q body)) }
      waiting := .none } = r.tally T ++ r.notes T (.quantifier (.ok q)) := by
  cases takes with
  | atom last | single last =>
      simp [tally, notes, Level.tally, Level.parts, Level.settled, last, LastPiece.toPiece?,
        Phrase.tally, LastPiece.isMarked]
  | split last =>
      simp [tally, notes, Level.tally, Level.parts, Level.settled, Level.begin, last,
        LastPiece.toPiece?, Phrase.tally]

theorem tally_step {i : Nat} {t : Token} (h : r.step i t = .ok s) :
    s.tally T = r.tally T ++ r.notes T t := by
  cases step_eq_ok.1 h with
  | literal c => exact r.tally_literal T c
  | marker => exact (List.append_nil _).symm
  | atom isAtom => cases isAtom <;> exact r.tally_atom T _
  | opening kind => exact r.tally_openGroup T _ kind
  | closing _ groups => exact tally_closeGroup T groups
  | bar =>
      rw [tally, Level.tally_endBranch, ← List.append_assoc]
      rfl
  | quantifier q _ takes => exact tally_quantifier T q takes

theorem tally_finished (groups : r.groups = []) :
    r.level.toPhrase.tally T false = r.tally T ++ r.level.joints T false := by
  rw [Level.tally_toPhrase, tally, groups]
  rfl

theorem exists_step_of_noted {ts : List Token} (taken : start.advance? ts = some r) {i : Nat}
    {a : α} (noted : (r.tally T)[i]? = some a) :
    ∃ before t rest u s j, ts = before ++ t :: rest ∧ start.advance? before = some u ∧
      u.step 0 t = .ok s ∧ s.tally T <+: r.tally T ∧ i = (u.tally T).length + j ∧
      (u.notes T t)[j]? = some a := by
  induction ts using List.reverseRecOn generalizing r with
  | nil =>
      cases taken
      cases noted
  | append_singleton ts t ih =>
      rw [advance?_append, Option.bind_eq_some_iff] at taken
      obtain ⟨u, before, taken⟩ := taken
      obtain ⟨s, step, ends⟩ := advance?_cons_eq_some.1 taken
      cases ends
      have added := tally_step T step
      rcases Nat.lt_or_ge i (u.tally T).length with earlier | here
      · rw [added, List.getElem?_append_left earlier] at noted
        obtain ⟨first, t', rest, v, w, j, rfl, others, step', kept, place⟩ := ih before noted
        exact ⟨first, t', rest ++ [t], v, w, j, by simp, others, step',
          kept.trans (added ▸ List.prefix_append _ _), place⟩
      · rw [added, List.getElem?_append_right here] at noted
        exact ⟨ts, t, [], u, r, i - (u.tally T).length, rfl, before, step, List.prefix_rfl,
          (Nat.add_sub_cancel' here).symm, noted⟩

end Reader

end PatternSampler
