import PatternSampler.Proofs.Phrase.Likeness
import PatternSampler.Proofs.Phrase.Pieces
import PatternSampler.Proofs.Phrase.Stamps

/-!
# Readers that differ in marks

Twins have read the same but for markers.  The same tokens lead from twins to twins.  What
is completed on the way bears the same stamps, unless the marks around it differ or the
last piece has yet to get a quantifier.
-/

namespace PatternSampler

theorem Phrase.unmarkedEach_eq_of_forall₂ {ps ps' : List Phrase}
    (h : List.Forall₂ (fun p p' => p'.unmarked = p.unmarked) ps ps') :
    unmarkedEach ps' = unmarkedEach ps := by
  induction h with
  | nil => rfl
  | cons first _ ih => rw [unmarkedEach, unmarkedEach, first, ih]

theorem Phrase.likeness_unmarked : Likeness 0 fun p p' => p'.unmarked = p.unmarked where
  text _ := rfl
  set _ := rfl
  guid := rfl
  group h := congrArg group h
  capture index name h := congrArg (capture index name) h
  rep _ _ q h := congrArg (rep false q) h
  markedIf m m' h := by
    cases m <;> cases m' <;> exact h
  branch h := congrArg branch (unmarkedEach_eq_of_forall₂ h)
  choice h := congrArg choice (unmarkedEach_eq_of_forall₂ h)

/-- Readers that differ in marks only. -/
structure Reader.Twin (r r' : Reader) : Prop extends
    Reader.Like 0 (fun p p' => p'.unmarked = p.unmarked) [] [] [] r r' where
  honors : r'.honors = r.honors

theorem LastPiece.like_refl (l : LastPiece) :
    LastPiece.Like (fun p p' => p'.unmarked = p.unmarked) l l := by
  cases l with
  | none => exact .none
  | literals marked before last => exact .literals marked marked before last
  | atom marked body => exact .atom marked marked rfl
  | quantified piece => exact .quantified rfl

theorem Level.like_refl (l : Level) :
    Level.Like (fun p p' => p'.unmarked = p.unmarked) [] l l :=
  ⟨⟨l.branches, (List.append_nil _).symm, List.forall₂_refl _⟩, List.forall₂_refl _,
    l.last.like_refl⟩

theorem stackLike_refl (l : Level) (gs : List OpenGroup) :
    StackLike 0 (fun p p' => p'.unmarked = p.unmarked) [] [] l gs l gs := by
  induction gs generalizing l with
  | nil => exact .base l.like_refl
  | cons g gs ih =>
      refine .enter l.like_refl ?_ (ih g.outer)
      cases g.capture <;> rfl

namespace Reader

variable {r r' s : Reader} {i : Nat} {t : Token}

theorem twin_of_stack
    (stack : StackLike 0 (fun p p' => p'.unmarked = p.unmarked) [] [] r.level r.groups r'.level
      r'.groups)
    (captures : r'.captures = r.captures) (closed : r'.closed = r.closed)
    (waiting : r'.waiting = r.waiting) (honors : r'.honors = r.honors) : r.Twin r' :=
  ⟨⟨stack, captures, closed.trans (List.map_id _).symm, waiting⟩, honors⟩

namespace Twin

theorem resolve?_eq (h : r.Twin r') (key : GroupKey) : r'.resolve? key = r.resolve? key := by
  have closed : r'.closed = r.closed := h.closed.trans (List.map_id _)
  cases key <;> simp only [resolve?, closed]

theorem marks_eq (h : r.Twin r') : r'.marks = r.marks := by
  rw [marks, marks, h.honors, h.waiting]

theorem step (h : r.Twin r') (taken : r.step i t = .ok s) :
    ∃ s', r'.step i t = .ok s' ∧ s.Twin s' := by
  obtain ⟨s', taken', alike⟩ := h.toLike.step Phrase.likeness_unmarked
    (fun key _ index resolved => ⟨index, (h.resolve?_eq key).trans resolved, rfl⟩) taken
  have honors : s'.honors = s.honors := by
    rw [honors_step taken, honors_step taken', h.honors]
  exact ⟨s', taken', alike, honors⟩

end Twin

def flags (r : Reader) : List Bool := r.groups.map (·.marked)

theorem underMarker_eq (groups : List OpenGroup) :
    underMarker groups = (groups.map (·.marked)).any id := by
  simp [underMarker]

def nextFlags (r : Reader) : Token → List Bool
  | .opening _ => r.marks :: r.flags
  | .closing => r.flags.tail
  | _ => r.flags

theorem flags_step (taken : r.step i t = .ok s) : s.flags = r.nextFlags t := by
  cases step_eq_ok.1 taken with
  | literal | marker | bar | quantifier => rfl
  | atom isAtom => cases isAtom <;> rfl
  | opening kind => cases kind <;> rfl
  | closing _ groups => simp [nextFlags, flags, groups, closeGroup]

end Reader

namespace Reader

variable {r r' s : Reader} {i : Nat} {t : Token} {ts : List Token}

/-- Whether the mark of the last piece matters to what comes next.  A quantifier takes one
character from a longer run of literals, and that one is not marked. -/
def consults (r : Reader) (ts : List Token) : Bool :=
  match r.level.last with
  | .literals _ (_ :: _) _ => false
  | _ => quantifierAfter r.waiting ts

def nextMark (r : Reader) : Token → Bool
  | .literal _ | .set _ | .guid | .anchor | .reference _ => r.marks
  | .closing => r.flags.headD false
  | _ => false

theorem last_step (taken : r.step i t = .ok s) :
    (t = .marker ∧ s = r.marker i) ∨
      (∃ c m before last, t = .literal c ∧ s.level.last = .literals m (last :: before) c) ∨
      s.level.last.isMarked = r.nextMark t := by
  cases step_eq_ok.1 taken with
  | marker => exact .inl ⟨rfl, rfl⟩
  | literal c =>
      right
      rcases r.literal_cases c with ⟨waiting, m, before, d, last⟩ | ⟨-, begins⟩
      · exact .inl ⟨c, m, before, d, rfl, by rw [literal_of_run last waiting]⟩
      · exact .inr (by rw [begins]; rfl)
  | atom isAtom => cases isAtom <;> exact .inr (.inr rfl)
  | opening kind => cases kind <;> exact .inr (.inr rfl)
  | closing _ groups =>
      right
      right
      simp [nextMark, flags, groups, closeGroup, Level.begin, LastPiece.isMarked]
  | bar | quantifier => exact .inr (.inr rfl)

theorem Twin.level (h : r.Twin r') :
    Level.Like (fun p p' => p'.unmarked = p.unmarked) [] r.level r'.level :=
  h.stack.level

theorem Twin.width_eq (h : r.Twin r') : r'.level.width = r.level.width := by
  have pieces := h.level.pieces.length_eq
  have last := (h.level.last.toPiece? Phrase.likeness_unmarked).length_eq
  rw [Level.width, Level.width, pieces, last]

theorem Twin.joints_eq (h : r.Twin r') (outer : Bool) :
    r'.level.joints .stamps outer = r.level.joints .stamps outer := by
  obtain ⟨own, branches, alike⟩ := h.level.branches
  have length : r'.level.branches.length = r.level.branches.length := by
    rw [branches, List.append_nil, alike.length_eq]
  rw [Level.joints, Level.joints, h.width_eq, length]

theorem Twin.length_groups (h : r.Twin r') : r'.groups.length = r.groups.length := by
  have of_stack {l l' : Level} {gs gs' : List OpenGroup}
      (h : StackLike 0 (fun p p' => p'.unmarked = p.unmarked) [] [] l gs l' gs') :
      gs'.length = gs.length := by
    induction h with
    | base => rfl
    | enter _ _ _ ih => exact congrArg (· + 1) ih
  exact of_stack h.stack

theorem Twin.notes_mark (h : r.Twin r') (under : underMarker r'.groups = true) (t : Token) :
    r'.notes .stamps t = (r.notes .stamps t).map Stamp.mark := by
  have last := h.level.last
  cases t with
  | literal c =>
      simp only [notes, under, h.waiting]
      generalize r.level.last = l at last ⊢
      generalize r'.level.last = l' at last ⊢
      cases r.waiting <;> cases last <;> rfl
  | set | anchor | reference => simp [notes, under, Stamp.mark]
  | guid =>
      simp only [notes, under, Bool.true_or]
      exact Phrase.stamps_true _ _
  | closing =>
      simp only [notes, under, List.map_append]
      rw [h.joints_eq, Level.joints_true (underMarker r.groups)]
      rfl
  | bar =>
      simp only [notes, under]
      rw [h.width_eq, Phrase.joint_true]
  | quantifier bounds =>
      cases bounds with
      | error e => rfl
      | ok q =>
          simp only [notes, under, h.marks_eq, Bool.true_or]
          generalize r.level.last = l at last ⊢
          generalize r'.level.last = l' at last ⊢
          cases last with
          | literals m m' before c => cases before <;> rfl
          | none | atom | quantified => rfl
  | opening kind => cases kind <;> rfl
  | marker | invalid => rfl

theorem Twin.notes_eq (h : r.Twin r') (flags : r'.flags = r.flags)
    (last : r.consults (t :: ts) = true → r'.level.last.isMarked = r.level.last.isMarked)
    (taken : r.step i t = .ok s) :
    r'.notes .stamps t = r.notes .stamps t := by
  have under : underMarker r'.groups = underMarker r.groups := by
    rw [underMarker_eq, underMarker_eq]
    exact congrArg (·.any id) flags
  have alike := h.level.last
  cases t with
  | literal c =>
      simp only [notes, under, h.waiting, h.marks_eq]
      generalize r.level.last = l at alike ⊢
      generalize r'.level.last = l' at alike ⊢
      cases r.waiting <;> cases alike <;> rfl
  | set | anchor | reference | guid => simp only [notes, under, h.marks_eq]
  | closing => simp only [notes, under, h.joints_eq]
  | bar => simp only [notes, under, h.width_eq]
  | quantifier bounds =>
      cases step_eq_ok.1 taken with
      | atom isAtom => cases isAtom
      | quantifier q few =>
          have reached : quantifierAfter r.waiting (.quantifier (.ok q) :: ts) = true := by
            cases waiting : r.waiting with
            | none | one => rfl
            | several first => exact absurd waiting (few first)
          simp only [notes, under, h.marks_eq]
          simp only [consults, reached] at last
          generalize r.level.last = l at alike last ⊢
          generalize r'.level.last = l' at alike last ⊢
          cases alike with
          | literals m m' before c =>
              cases before with
              | nil =>
                  have same : m' = m := last rfl
                  rw [same]
              | cons => rfl
          | atom m m' =>
              have same : m' = m := last rfl
              rw [same]
              rfl
          | none | quantified => rfl
  | opening kind => cases kind <;> rfl
  | marker | invalid => rfl

/-- Twins under the same marks, whose last pieces are marked alike if that still matters. -/
structure Agree (r r' : Reader) (ts : List Token) : Prop where
  twin : r.Twin r'
  flags : r'.flags = r.flags
  last : r.consults ts = true → r'.level.last.isMarked = r.level.last.isMarked

theorem consults_marker (r : Reader) (i : Nat)
    (h : (r.marker i).consults ts = true) :
    r.consults (.marker :: ts) = true := by
  simp only [consults, marker] at h ⊢
  split at h
  · cases h
  · exact quantifierAfter_add _ _ h

theorem Agree.step (h : Agree r r' (t :: ts)) (taken : r.step i t = .ok s) :
    ∃ s', r'.step i t = .ok s' ∧ Agree s s' ts ∧ r'.notes .stamps t = r.notes .stamps t := by
  obtain ⟨s', taken', twin⟩ := h.twin.step taken
  have flags : s'.flags = s.flags := by
    rw [flags_step taken, flags_step taken']
    cases t <;> simp only [nextFlags, h.flags, h.twin.marks_eq]
  refine ⟨s', taken', ⟨twin, flags, fun matters => ?_⟩,
    h.twin.notes_eq h.flags h.last taken⟩
  rcases last_step taken with ⟨rfl, rfl⟩ | ⟨c, m, before, last, rfl, long⟩ | fresh
  · cases taken'
    exact h.last (r.consults_marker i matters)
  · simp [consults, long] at matters
  · rcases last_step taken' with ⟨rfl, rfl⟩ | ⟨c, m, before, last, rfl, long⟩ | fresh'
    · cases taken
      exact h.last (r.consults_marker i matters)
    · -- both have gone on with a run of literals
      have alike := twin.level.last
      rw [long] at alike
      cases longer : s.level.last <;> rw [longer] at alike <;> cases alike
      simp [consults, longer] at matters
    · have next : r'.nextMark t = r.nextMark t := by
        cases t <;> simp only [nextMark, h.flags, h.twin.marks_eq]
      rw [fresh, fresh', next]

theorem Agree.advance? (h : Agree r r' ts) (taken : r.advance? ts = some s) :
    ∃ s' added, r'.advance? ts = some s' ∧ Agree s s' [] ∧
      s.tally .stamps = r.tally .stamps ++ added ∧
      s'.tally .stamps = r'.tally .stamps ++ added := by
  induction ts generalizing r r' with
  | nil =>
      cases taken
      exact ⟨r', [], rfl, h, (List.append_nil _).symm, (List.append_nil _).symm⟩
  | cons t ts ih =>
      obtain ⟨next, step, others⟩ := advance?_cons_eq_some.1 taken
      obtain ⟨next', step', agree, adds⟩ := h.step step
      obtain ⟨s', added, others', agree, stamps, stamps'⟩ := ih agree others
      refine ⟨s', r.notes .stamps t ++ added,
        advance?_cons_eq_some.2 ⟨next', step', others'⟩, agree, ?_, ?_⟩
      · rw [stamps, tally_step _ step, List.append_assoc]
      · rw [stamps', tally_step _ step', adds, List.append_assoc]

end Reader

end PatternSampler
