import PatternSampler.Proofs.Phrase.Twins

/-!
# Reading behind a marker

Read behind a marker a piece is the same piece, and all that it completes is marked.  Behind
it the two readers are twins that go on alike.
-/

namespace PatternSampler

def Token.nests : Token → Bool
  | opening _ | closing => true
  | _ => false

namespace Reader

variable {r q q' s f : Reader} {i : Nat} {t : Token} {ts : List Token}

theorem Between.consults (h : r.Between ts) : r.consults ts = false := by
  unfold Reader.consults
  split
  · rfl
  · rw [h.waiting]
    exact h.unquantified

/-- From where `r` stands `q'` has completed what `q` has, and all of it is marked. -/
def MarksMore (r q q' : Reader) : Prop :=
  ∃ own, q.tally .stamps = r.tally .stamps ++ own ∧
    q'.tally .stamps = r.tally .stamps ++ own.map Stamp.mark

theorem MarksMore.step {s' : Reader} (h : MarksMore r q q') (taken : q.step i t = .ok s)
    (taken' : q'.step i t = .ok s')
    (notes : q'.notes .stamps t = (q.notes .stamps t).map Stamp.mark) : MarksMore r s s' := by
  obtain ⟨own, stamps, stamps'⟩ := h
  refine ⟨own ++ q.notes .stamps t, ?_, ?_⟩
  · rw [tally_step _ taken, stamps, List.append_assoc]
  · rw [tally_step _ taken', stamps', notes, List.map_append, List.append_assoc]

/-- `q` and `q'` have both begun a piece where `r` stands, which `q'` has read behind a
marker. -/
structure Ahead (r q q' : Reader) : Prop where
  twin : q.Twin q'
  groups : q.groups = r.groups
  groups' : q'.groups = r.groups
  level : ∃ last, last ≠ .none ∧ q.level = r.level.begin last
  stamps : MarksMore r q q'

theorem Ahead.agree (h : Ahead r q q') (between : q.Between ts) : Agree q q' ts where
  twin := h.twin
  flags := by rw [flags, flags, h.groups, h.groups']
  last matters := by
    rw [between.consults] at matters
    cases matters

theorem groups_step (taken : r.step i t = .ok s) (flat : t.nests = false) :
    s.groups = r.groups := by
  cases step_eq_ok.1 taken with
  | literal | marker | atom | bar | quantifier => rfl
  | opening | closing => cases flat

theorem Ahead.step (h : Ahead r q q') (taken : q.step 0 t = .ok s) (flat : t.nests = false)
    (level : ∃ last, last ≠ .none ∧ s.level = r.level.begin last)
    (notes : q'.notes .stamps t = (q.notes .stamps t).map Stamp.mark) :
    ∃ s', q'.step 0 t = .ok s' ∧ Ahead r s s' := by
  obtain ⟨s', taken', twin⟩ := h.twin.step taken
  exact ⟨s', taken', twin, (groups_step taken flat).trans h.groups,
    (groups_step taken' flat).trans h.groups', level, h.stamps.step taken taken' notes⟩

theorem Twin.notes_quantifier (h : q.Twin q') (whole : q.TakesWhole)
    (marked : q'.level.last.isMarked = true) (quantifier : Quantifier) :
    q'.notes .stamps (.quantifier (.ok quantifier)) =
      (q.notes .stamps (.quantifier (.ok quantifier))).map Stamp.mark := by
  have alike := h.level.last
  simp only [TakesWhole] at whole
  simp only [notes, h.marks_eq]
  generalize q.level.last = l at alike whole ⊢
  generalize q'.level.last = l' at alike marked ⊢
  cases alike with
  | none | quantified => cases marked
  | atom m m' => simp [marked, Stamp.mark]
  | literals m m' before c =>
      cases before with
      | nil => simp [marked, Stamp.mark]
      | cons d before => exact absurd rfl (whole m d before c)

theorem Ahead.quantify (h : Ahead r q q') (whole : q.TakesWhole)
    (marked : q'.level.last.isMarked = true) {bounds : Except PatternError Quantifier}
    (taken : q.advance? (.quantifier bounds :: ts) = some f) :
    ∃ s s', q.step 0 (.quantifier bounds) = .ok s ∧ q'.step 0 (.quantifier bounds) = .ok s' ∧
      Ahead r s s' ∧ s.Between ts := by
  obtain ⟨s, step, taken⟩ := advance?_cons_eq_some.1 taken
  cases step_eq_ok.1 step with
  | atom isAtom => cases isAtom
  | quantifier quantifier few takes =>
      obtain ⟨last, some, begun⟩ := h.level
      obtain ⟨s', step', ahead⟩ := h.step step rfl
        ⟨.quantified _, LastPiece.noConfusion, by rw [takes.level_eq whole, begun]; rfl⟩
        (h.twin.notes_quantifier whole marked quantifier)
      refine ⟨_, s', step, step', ahead, between_of_ne_literals rfl ?_ ?_⟩
      · exact not_quantifierNext (.inr ⟨_, rfl⟩) taken
      · exact fun _ _ _ => LastPiece.noConfusion

/-- `q` and `q'` read the rest of a piece from `ts` in step with each other. -/
inductive Completes (r : Reader) : Reader → Reader → List Token → Prop
  | done {q q' : Reader} {ts : List Token} (ahead : Ahead r q q') (between : q.Between ts) :
      Completes r q q' ts
  | step {q q' s s' : Reader} {t : Token} {ts : List Token} (taken : q.step 0 t = .ok s)
      (taken' : q'.step 0 t = .ok s') (others : Completes r s s' ts) : Completes r q q' (t :: ts)

theorem Completes.exists_end (h : Completes r q q' ts) :
    ∃ rest after s s', ts = rest ++ after ∧ q.advance? rest = some s ∧
      q'.advance? rest = some s' ∧ Ahead r s s' ∧ s.Between after := by
  induction h with
  | done ahead between => exact ⟨[], _, _, _, rfl, rfl, rfl, ahead, between⟩
  | step taken taken' _ ih =>
      obtain ⟨rest, after, s, s', rfl, others, others', ahead, between⟩ := ih
      exact ⟨_ :: rest, after, s, s', rfl, advance?_cons_eq_some.2 ⟨_, taken, others⟩,
        advance?_cons_eq_some.2 ⟨_, taken', others'⟩, ahead, between⟩

theorem Ahead.completes_of_quantifierNext (h : Ahead r q q') (whole : q.TakesWhole)
    (marked : q'.level.last.isMarked = true) (next : quantifierNext ts = true)
    (taken : q.advance? ts = some f) : Completes r q q' ts := by
  obtain ⟨bounds, after, rfl | rfl⟩ := quantifierNext_cases next
  · obtain ⟨s, s', step, step', ahead, between⟩ := h.quantify whole marked taken
    exact .step step step' (.done ahead between)
  · obtain ⟨q₁, step, taken⟩ := advance?_cons_eq_some.1 taken
    cases step
    obtain ⟨q₁', step', ahead⟩ := h.step (t := .marker) rfl rfl h.level rfl
    cases step'
    obtain ⟨s, s', step, step', ahead, between⟩ := ahead.quantify whole marked taken
    exact .step rfl rfl (.step step step' (.done ahead between))

theorem Ahead.completes_atom (h : Ahead r q q') {m : Bool} {body : Phrase}
    (last : q.level.last = .atom m body) (marked : q'.level.last.isMarked = true)
    (waiting : q.waiting = .none) (taken : q.advance? ts = some f) : Completes r q q' ts := by
  cases next : quantifierNext ts with
  | true =>
      have whole : q.TakesWhole := fun _ _ _ _ literals => by simp [last] at literals
      exact h.completes_of_quantifierNext whole marked next taken
  | false =>
      exact .done h (between_of_ne_literals waiting next fun _ _ _ literals => by
        simp [last] at literals)

theorem Twin.last_literals (h : q.Twin q') {m : Bool} {before : List Char} {c : Char}
    (last : q.level.last = .literals m before c) :
    ∃ m', q'.level.last = .literals m' before c := by
  have alike := h.level.last
  rw [last] at alike
  generalize q'.level.last = l' at alike
  cases alike with
  | literals _ m' => exact ⟨m', rfl⟩

theorem Ahead.literal (h : Ahead r q q') {m : Bool} {before : List Char} {c : Char}
    (last : q.level.last = .literals m before c) (waiting : q.waiting = .none) (d : Char) :
    Ahead r (q.literal d) (q'.literal d) ∧
      (q'.literal d).level.last.isMarked = q'.level.last.isMarked := by
  obtain ⟨m', last'⟩ := h.twin.last_literals last
  have waiting' : q'.waiting = .none := h.twin.waiting.trans waiting
  have longer := literal_of_run last waiting d
  have notes : q'.notes .stamps (.literal d) = (q.notes .stamps (.literal d)).map Stamp.mark := by
    rw [notes_of_run _ last waiting, notes_of_run _ last' waiting']
    rfl
  obtain ⟨l, -, begun⟩ := h.level
  obtain ⟨s', step', ahead⟩ := h.step (t := .literal d) rfl rfl
    ⟨.literals m (c :: before) d, LastPiece.noConfusion, by rw [longer, begun]; rfl⟩ notes
  cases step'
  refine ⟨ahead, ?_⟩
  rw [literal_of_run last' waiting', last']
  rfl

theorem Ahead.completes_literals (h : Ahead r q q') {m : Bool} {before : List Char} {c : Char}
    (last : q.level.last = .literals m before c) (marked : q'.level.last.isMarked = true)
    (single : before = [] ∨ quantifierNext ts = false)
    (waiting : q.waiting = .none) (taken : q.advance? ts = some f) : Completes r q q' ts := by
  induction ts generalizing q q' before c with
  | nil => exact .done h ⟨waiting, rfl, fun _ _ _ _ _ _ empty => by cases empty⟩
  | cons t ts ih =>
      cases next : quantifierNext (t :: ts) with
      | true =>
          obtain rfl : before = [] := single.resolve_right (by simp [next])
          have whole : q.TakesWhole := fun _ _ _ _ literals => by simp [last] at literals
          exact h.completes_of_quantifierNext whole marked next taken
      | false =>
          -- The run goes on as long as the next literal does not get a quantifier.
          by_cases goesOn : ∃ d, t = .literal d ∧ quantifierNext ts = false
          · obtain ⟨d, rfl, unquantified⟩ := goesOn
            obtain ⟨s, step, taken⟩ := advance?_cons_eq_some.1 taken
            cases step
            obtain ⟨ahead, kept⟩ := h.literal last waiting d
            have longer := literal_of_run last waiting d
            have run : (q.literal d).level.last = .literals m (c :: before) d := by rw [longer]
            have resolved : (q.literal d).waiting = .none := by rw [longer, waiting]
            exact .step rfl rfl
              (ih ahead run (kept.trans marked) (.inr unquantified) resolved taken)
          · refine .done h ⟨waiting, next, fun _ _ _ d cs _ literal => ?_⟩
            obtain ⟨rfl, rfl⟩ := List.cons.inj literal
            cases further : quantifierNext ts with
            | true => rfl
            | false => exact absurd ⟨d, rfl, further⟩ goesOn

theorem closing_step {g : OpenGroup} {gs : List OpenGroup} (groups : r.groups = g :: gs)
    (taken : r.step i .closing = .ok s) : r.waiting = .none ∧ s = r.closeGroup g gs := by
  cases step_eq_ok.1 taken with
  | atom isAtom => cases isAtom
  | closing waiting same =>
      obtain ⟨rfl, rfl⟩ := List.cons.inj (same.symm.trans groups)
      exact ⟨waiting, rfl⟩

theorem suffix_step {outer : List OpenGroup} (taken : r.step i t = .ok s)
    (inside : outer <:+ r.groups) (stays : t = .closing → r.groups.length ≠ outer.length) :
    outer <:+ s.groups := by
  cases step_eq_ok.1 taken with
  | literal | marker | atom | bar | quantifier => exact inside
  | opening kind => cases kind <;> exact inside.trans (List.suffix_cons _ _)
  | closing _ groups =>
      rw [groups] at inside stays
      rcases List.suffix_cons_iff.1 inside with whole | further
      · exact absurd (congrArg List.length whole.symm) (stays rfl)
      · exact further

/-- `q` and `q'` stand inside of the group `g`, which was opened where `r` stands and, for
`q'`, behind a marker. -/
structure Within (r : Reader) (g : OpenGroup) (q q' : Reader) : Prop where
  twin : q.Twin q'
  groups : g :: r.groups <:+ q.groups
  groups' : { g with marked := true } :: r.groups <:+ q'.groups
  stamps : MarksMore r q q'

namespace Within

variable {g : OpenGroup}

theorem stamps_step (h : Within r g q q') {s' : Reader} (taken : q.step 0 t = .ok s)
    (taken' : q'.step 0 t = .ok s') : MarksMore r s s' := by
  have under : underMarker q'.groups = true :=
    List.any_eq_true.2 ⟨_, h.groups'.subset List.mem_cons_self, rfl⟩
  exact h.stamps.step taken taken' (h.twin.notes_mark under t)

theorem step (h : Within r g q q') (taken : q.step 0 t = .ok s)
    (stays : t = .closing → q.groups.length ≠ r.groups.length + 1) :
    ∃ s', q'.step 0 t = .ok s' ∧ Within r g s s' := by
  obtain ⟨s', taken', twin⟩ := h.twin.step taken
  have stays' : t = .closing → q'.groups.length ≠ r.groups.length + 1 := by
    rw [h.twin.length_groups]
    exact stays
  exact ⟨s', taken', twin, suffix_step taken h.groups stays, suffix_step taken' h.groups' stays',
    h.stamps_step taken taken'⟩

theorem close (h : Within r g q q') (outer : g.outer = r.level)
    (length : q.groups.length = r.groups.length + 1) (taken : q.step 0 .closing = .ok s) :
    ∃ s', q'.step 0 .closing = .ok s' ∧ Ahead r s s' ∧
      s.level.last = .atom g.marked (g.wrap q.level.toPhrase) ∧
      s'.level.last.isMarked = true ∧ s.waiting = .none := by
  have groups : q.groups = g :: r.groups := (h.groups.eq_of_length length.symm).symm
  have groups' : q'.groups = { g with marked := true } :: r.groups :=
    (h.groups'.eq_of_length (h.twin.length_groups.trans length).symm).symm
  obtain ⟨s', taken', twin⟩ := h.twin.step taken
  have stamps := h.stamps_step taken taken'
  obtain ⟨waiting, rfl⟩ := closing_step groups taken
  obtain ⟨-, rfl⟩ := closing_step groups' taken'
  have level : ∃ last, last ≠ .none ∧
      (q.closeGroup g r.groups).level = r.level.begin last := by
    rw [closeGroup, outer]
    exact ⟨_, LastPiece.noConfusion, rfl⟩
  exact ⟨_, taken', ⟨twin, rfl, rfl, level, stamps⟩, rfl, rfl, waiting⟩

theorem completes (h : Within r g q q') (outer : g.outer = r.level)
    (taken : q.advance? ts = some f) (finished : f.groups = []) : Completes r q q' ts := by
  induction ts generalizing q q' with
  | nil =>
      cases taken
      have inside := h.groups.length_le
      simp [finished] at inside
  | cons t ts ih =>
      obtain ⟨s, step, others⟩ := advance?_cons_eq_some.1 taken
      by_cases closes : t = .closing ∧ q.groups.length = r.groups.length + 1
      · obtain ⟨rfl, length⟩ := closes
        obtain ⟨s', step', ahead, last, marked, waiting⟩ := h.close outer length step
        exact .step step step' (ahead.completes_atom last marked waiting others)
      · obtain ⟨s', step', inside⟩ := h.step step fun closing length => closes ⟨closing, length⟩
        exact .step step step' (ih inside others)

end Within

/-! ## The whole piece -/

def behind (r : Reader) (w : Waiting) (has : Bool) : Reader :=
  { r with waiting := w, hasMarker := has }

def begun (r : Reader) (last : LastPiece) (has : Bool) : Reader :=
  { r with level := r.level.begin last, waiting := .none, hasMarker := has }

variable {w w' : Waiting} {has has' : Bool}

theorem ahead_begun {last last' : LastPiece} (some : last ≠ .none)
    (alike : LastPiece.Like (fun p p' => p'.unmarked = p.unmarked) last last')
    (stamps : last'.toPiece?.toList.flatMap (Phrase.tally .stamps (underMarker r.groups)) =
      (last.toPiece?.toList.flatMap (Phrase.tally .stamps (underMarker r.groups))).map Stamp.mark) :
    Ahead r (r.begun last has) (r.begun last' has') where
  twin := by
    refine twin_of_stack ?_ rfl rfl rfl rfl
    exact (stackLike_refl r.level r.groups).map fun _ hl =>
      hl.begin Phrase.likeness_unmarked alike
  groups := rfl
  groups' := rfl
  level := ⟨last, some, rfl⟩
  stamps := by
    refine ⟨_, tally_begin _ { r with hasMarker := has } last, ?_⟩
    exact (tally_begin _ { r with hasMarker := has' } last').trans (congrArg _ stamps)

theorem ahead_atom (body : Phrase) (m : Bool) :
    Ahead r (r.begun (.atom m body) has) (r.begun (.atom true body) has') := by
  refine ahead_begun LastPiece.noConfusion (.atom m true rfl) ?_
  simp only [LastPiece.toPiece?, Option.toList_some, List.flatMap_singleton,
    Phrase.tally_markedIf, Bool.or_true]
  exact Phrase.stamps_true _ _

theorem ahead_literal (c : Char) (m : Bool) :
    Ahead r (r.begun (.literals m [] c) has) (r.begun (.literals true [] c) has') := by
  refine ahead_begun LastPiece.noConfusion (.literals m true [] c) ?_
  simp only [LastPiece.toPiece?, Option.toList_some, List.flatMap_singleton,
    Phrase.tally_markedIf, Bool.or_true]
  exact Phrase.stamps_true _ _

theorem completes_quantified {p : Phrase}
    (taken : (r.begun (.quantified p) has).advance? ts = some f) :
    Completes r (r.begun (.quantified p) has) (r.begun (.quantified (.marked p)) has') ts := by
  refine .done (ahead_begun LastPiece.noConfusion (.quantified rfl) ?_)
    (between_of_ne_literals rfl (not_quantifierNext (.inr ⟨_, rfl⟩) taken)
      fun _ _ _ => LastPiece.noConfusion)
  simp only [LastPiece.toPiece?, Option.toList_some, List.flatMap_singleton]
  exact Phrase.stamps_true _ _

section

variable (marked : (r.behind w' has').marks = true)
include marked

theorem completes_group (kind : GroupKind)
    (taken : ((r.behind w has).openGroup 0 kind).advance? ts = some f) (finished : f.groups = []) :
    Completes r ((r.behind w has).openGroup 0 kind) ((r.behind w' has').openGroup 0 kind) ts := by
  have stamps (w : Waiting) (has : Bool) :
      ((r.behind w has).openGroup 0 kind).tally .stamps = r.tally .stamps := by
    rw [tally_openGroup]
    cases kind <;> exact List.append_nil _
  have twin : ((r.behind w has).openGroup 0 kind).Twin ((r.behind w' has').openGroup 0 kind) := by
    have stack := stackLike_refl r.level r.groups
    cases kind <;> exact twin_of_stack (.enter .empty rfl stack) rfl rfl rfl rfl
  obtain ⟨g, outer, groups, groups'⟩ : ∃ g : OpenGroup, g.outer = r.level ∧
      ((r.behind w has).openGroup 0 kind).groups = g :: r.groups ∧
      ((r.behind w' has').openGroup 0 kind).groups = { g with marked := true } :: r.groups := by
    cases kind <;> exact ⟨_, rfl, rfl, by simp only [openGroup, marked]; rfl⟩
  have inside : Within r g ((r.behind w has).openGroup 0 kind)
      ((r.behind w' has').openGroup 0 kind) :=
    ⟨twin, groups ▸ List.suffix_rfl, groups' ▸ List.suffix_rfl, [], by simp [stamps],
      by simp [stamps]⟩
  exact inside.completes outer taken finished

theorem completes_atom (body : Phrase)
    (taken : ((r.behind w has).atom body).advance? ts = some f) :
    Completes r ((r.behind w has).atom body) ((r.behind w' has').atom body) ts := by
  have begun : (r.behind w' has').atom body = r.begun (.atom true body) has' := by
    rw [atom, marked]
    rfl
  rw [begun]
  exact (ahead_atom body (r.behind w has).marks).completes_atom rfl rfl rfl taken

theorem literal_behind (c : Char) :
    (r.behind w' has').literal c = r.begun (.literals true [] c) has' := by
  rcases (r.behind w' has').literal_cases c with ⟨none, -⟩ | ⟨-, begins⟩
  · rw [marks_of_resolved none] at marked
    cases marked
  · rw [begins, marked]
    rfl

/-- A literal that is taken from a run because a quantifier follows it. -/
theorem completes_split {m : Bool} {before : List Char} {last : Char}
    (run : r.level.last = .literals m before last) (c : Char) (next : quantifierNext ts = true)
    (taken : ((r.behind .none has).literal c).advance? ts = some f) :
    Completes r ((r.behind .none has).literal c) ((r.behind w' has').literal c) ts := by
  rw [literal_behind marked]
  obtain ⟨⟨branches, pieces, l⟩, groups, captures, closed, waiting, honors, hasMarker⟩ := r
  cases run
  obtain ⟨bounds, after, rfl | rfl⟩ := quantifierNext_cases next
  · obtain ⟨s, step, taken⟩ := advance?_cons_eq_some.1 taken
    cases bounds with
    | error e => cases step
    | ok q =>
        cases step
        exact .step rfl rfl (completes_quantified taken)
  · obtain ⟨s, step, taken⟩ := advance?_cons_eq_some.1 taken
    cases step
    obtain ⟨s, step, taken⟩ := advance?_cons_eq_some.1 taken
    cases bounds with
    | error e => cases step
    | ok q =>
        cases step
        exact .step rfl rfl (.step rfl rfl (completes_quantified taken))

/-- A piece that begins where `r` stands is read behind a marker as well.  Markers of its
own may have been read already. -/
theorem completes_behind (unquantified : quantifierAfter w ts = false)
    (starts : w = .none → ∃ t cs, ts = t :: cs ∧ t.endsBranch = false)
    (whole : w = .none → ∀ m before last c cs, r.level.last = .literals m before last →
      ts = .literal c :: cs → quantifierNext cs = true)
    (taken : (r.behind w has).advance? ts = some f) (groups : f.groups = [])
    (waiting : f.waiting = .none) :
    Completes r (r.behind w has) (r.behind w' has') ts := by
  induction ts generalizing w w' has has' with
  | nil =>
      cases taken
      obtain ⟨t, cs, empty, -⟩ := starts waiting
      cases empty
  | cons t ts ih =>
      obtain ⟨s, step, taken⟩ := advance?_cons_eq_some.1 taken
      cases step_eq_ok.1 step with
      | marker =>
          have unquantified : quantifierAfter (w.add 0) ts = false :=
            quantifierAfter_add_eq_false 0 unquantified
          have waits : w.add 0 ≠ .none := w.add_ne_none 0
          have honors : r.honors = true := (Bool.and_eq_true_iff.1 marked).2
          have marked : (r.behind (w'.add 0) (has' || r.honors)).marks = true := by
            rw [marks, behind, honors]
            cases w' <;> rfl
          exact .step rfl rfl (ih marked unquantified (absurd · waits) (absurd · waits) taken)
      | literal c =>
          refine .step rfl rfl ?_
          rcases literal_cases (r.behind w has) c with ⟨none, m, before, last, run⟩ | ⟨-, begins⟩
          · cases none
            have run : r.level.last = .literals m before last := run
            exact completes_split marked run c (whole rfl m before last c ts run rfl) taken
          · rw [begins] at taken ⊢
            rw [literal_behind marked]
            exact (ahead_literal c _).completes_literals rfl rfl (.inl rfl) rfl taken
      | atom isAtom =>
          have isAtom' : (r.behind w' has').IsAtom t _ := isAtom.of_closed rfl
          exact .step step (step_eq_ok.2 (.atom isAtom')) (completes_atom marked _ taken)
      | opening kind => exact .step rfl rfl (completes_group marked kind taken groups)
      | closing none | bar none =>
          obtain ⟨_, _, same, goesOn⟩ := starts none
          cases same
          cases goesOn
      | quantifier q few =>
          cases w with
          | none | one => cases unquantified
          | several first => exact absurd rfl (few first)

end

theorem own_ne_nil {own : List Stamp} (groups : q.groups = r.groups)
    (level : ∃ last, last ≠ .none ∧ q.level = r.level.begin last)
    (stamps : q.tally .stamps = r.tally .stamps ++ own) : own ≠ [] := by
  obtain ⟨last, some, level⟩ := level
  have begun : q.tally .stamps = r.tally .stamps ++
      last.toPiece?.toList.flatMap (Phrase.tally .stamps (underMarker r.groups)) := by
    rw [Reader.tally, groups, level, Level.tally_begin, ← List.append_assoc]
    rfl
  obtain rfl := List.append_cancel_left (stamps.symm.trans begun)
  cases last with
  | none => exact absurd rfl some
  | literals | atom | quantified =>
      simp [LastPiece.toPiece?, Phrase.tally_ne_nil]

theorem step_marker (waiting : r.waiting = .none) :
    r.step 0 .marker = .ok (r.behind (.one 0) (r.hasMarker || r.honors)) := by
  rw [step, marker, waiting]
  rfl

theorem marks_behind (honors : r.honors = true) : (r.behind (.one 0) has).marks = true := by
  rw [marks, behind, honors]
  rfl

/-- A marker in front of a piece marks what the piece completes and nothing else. -/
theorem Between.marker (between : r.Between (t :: ts)) (starts : t.endsBranch = false)
    (honors : r.honors = true) (taken : r.advance? (t :: ts) = some f) (groups : f.groups = [])
    (waiting : f.waiting = .none) :
    ∃ q after f' own added, r.ReadsPiece (t :: ts) q after ∧
      r.advance? (.marker :: t :: ts) = some f' ∧ Agree f f' [] ∧ own ≠ [] ∧
      q.tally .stamps = r.tally .stamps ++ own ∧
      f.tally .stamps = r.tally .stamps ++ own ++ added ∧
      f'.tally .stamps = r.tally .stamps ++ own.map Stamp.mark ++ added := by
  have same : r = r.behind .none r.hasMarker := by
    rw [behind, ← between.waiting]
  obtain ⟨piece, after, q, q', split, read, read', ahead, complete⟩ :=
    (completes_behind (w := .none) (marks_behind honors) between.unquantified
      (fun _ => ⟨t, ts, rfl, starts⟩) (fun _ => between.whole) (same ▸ taken) groups
      waiting).exists_end
  obtain ⟨own, stamps, stamps'⟩ := ahead.stamps
  rw [← same] at read
  rw [split, advance?_append, read] at taken
  obtain ⟨f', added, taken', agree, further, further'⟩ :=
    (ahead.agree complete).advance? taken
  have some : own ≠ [] := own_ne_nil ahead.groups ahead.level stamps
  refine ⟨q, after, f', own, added, ⟨⟨piece, split, read⟩, ahead.groups, ahead.level, complete⟩, ?_,
    agree, some, stamps, ?_, ?_⟩
  · refine advance?_cons_eq_some.2 ⟨_, step_marker between.waiting, ?_⟩
    rw [split, advance?_append, read']
    exact taken'
  · rw [further, stamps]
  · rw [further', stamps']

theorem notes_behind (has : Bool) (honors : r.honors = true) (waiting : r.waiting = .none)
    (quantifier : Quantifier) : ∃ rest own, own.quantifier? = some quantifier ∧
      r.notes .stamps (.quantifier (.ok quantifier)) = rest ++ [own] ∧
      (r.behind (.one 0) has).notes .stamps (.quantifier (.ok quantifier)) =
        rest ++ [own.mark] := by
  have level : (r.behind (.one 0) has).level = r.level := rfl
  have groups : (r.behind (.one 0) has).groups = r.groups := rfl
  simp only [notes, marks_behind honors, marks_of_resolved waiting, level, groups]
  split
  · exact ⟨[_], ⟨_, _⟩, rfl, rfl, by simp [Stamp.mark]⟩
  · exact ⟨[], ⟨_, _⟩, rfl, rfl, by simp [Stamp.mark]⟩

theorem quantify_behind (has : Bool) (ts : List Token) {quantifier : Quantifier}
    (taken : r.step 0 (.quantifier (.ok quantifier)) = .ok q) :
    ∃ q', (r.behind (.one 0) has).step 0 (.quantifier (.ok quantifier)) = .ok q' ∧
      Agree q q' ts := by
  cases step_eq_ok.1 taken with
  | atom isAtom => cases isAtom
  | @quantifier m level body _ _ takes =>
      have alike :
          (Phrase.markedIf m (.rep (r.behind (.one 0) has).marks quantifier body)).unmarked =
            (Phrase.markedIf m (.rep r.marks quantifier body)).unmarked :=
        Phrase.likeness_unmarked.markedIf m m (Phrase.likeness_unmarked.rep _ _ quantifier rfl)
      have takes' : (r.behind (.one 0) has).Takes m level body := takes.of_level rfl
      refine ⟨_, step_eq_ok.2 (.quantifier quantifier (fun _ => Waiting.noConfusion) takes'),
        twin_of_stack ?_ rfl rfl rfl rfl, rfl, fun _ => rfl⟩
      exact (stackLike_refl level r.groups).map fun B hl =>
        ⟨hl.branches, hl.pieces, .quantified alike⟩

/-- A marker in front of a quantifier marks its repetition and nothing else. -/
theorem marker_quantifier {bounds : Except PatternError Quantifier} (waiting : r.waiting = .none)
    (honors : r.honors = true) (taken : r.advance? (.quantifier bounds :: ts) = some f) :
    ∃ quantifier q f' rest own added, bounds = .ok quantifier ∧
      r.step 0 (.quantifier bounds) = .ok q ∧ own.quantifier? = some quantifier ∧
      r.advance? (.marker :: .quantifier bounds :: ts) = some f' ∧ Agree f f' [] ∧
      q.tally .stamps = r.tally .stamps ++ rest ++ [own] ∧
      f.tally .stamps = r.tally .stamps ++ rest ++ [own] ++ added ∧
      f'.tally .stamps = r.tally .stamps ++ rest ++ [own].map Stamp.mark ++ added := by
  obtain ⟨q, step, taken⟩ := advance?_cons_eq_some.1 taken
  cases step_eq_ok.1 step with
  | atom isAtom => cases isAtom
  | quantifier quantifier =>
      obtain ⟨q', step', agree⟩ := quantify_behind (r.hasMarker || r.honors) ts step
      obtain ⟨f', added, taken', final, further, further'⟩ := agree.advance? taken
      obtain ⟨rest, own, repeats, notes, notes'⟩ :=
        notes_behind (r.hasMarker || r.honors) honors waiting quantifier
      have stamps := tally_step .stamps step
      rw [notes, ← List.append_assoc] at stamps
      have stamps' : q'.tally .stamps = r.tally .stamps ++ rest ++ [own].map Stamp.mark := by
        rw [tally_step _ step', notes', List.append_assoc]
        rfl
      refine ⟨quantifier, _, f', rest, own, added, rfl, step, repeats, ?_, final, stamps, ?_, ?_⟩
      · refine advance?_cons_eq_some.2 ⟨_, step_marker waiting, ?_⟩
        exact advance?_cons_eq_some.2 ⟨q', step', taken'⟩
      · rw [further, stamps]
      · rw [further', stamps']

end Reader

end PatternSampler
