import PatternSampler.Proofs.Phrase.Stamps

/-!
# Places in a phrase

A reader never looks into the phrases that it has read.  So what it finishes with is a function
of the phrase that it took for one atom, and that phrase stands in one place of the result.  As
many nodes are completed in front of the place as had been when the atom was read.
-/

namespace PatternSampler

namespace Phrase

def count (p : Phrase) : Nat := (p.tally .stamps false).length

def countIn : List Phrase → Nat
  | [] => 0
  | p :: ps => p.count + countIn ps

@[simp] theorem countIn_nil : countIn [] = 0 := rfl

@[simp] theorem countIn_cons (p : Phrase) (ps : List Phrase) :
    countIn (p :: ps) = p.count + countIn ps := rfl

@[simp] theorem countIn_append (ps qs : List Phrase) :
    countIn (ps ++ qs) = countIn ps + countIn qs := by
  induction ps with
  | nil => exact (Nat.zero_add _).symm
  | cons p ps ih => rw [List.cons_append, countIn_cons, countIn_cons, ih, Nat.add_assoc]

@[simp] theorem countIn_reverse (ps : List Phrase) : countIn ps.reverse = countIn ps := by
  induction ps with
  | nil => rfl
  | cons p ps ih => simp [ih, Nat.add_comm]

theorem length_stamps (outer : Bool) (p : Phrase) : (p.tally .stamps outer).length = p.count := by
  have marked (outer : Bool) :
      (p.tally .stamps outer).length = (p.tally .stamps true).length := by
    rw [stamps_true outer, List.length_map]
  rw [count, marked outer, marked false]

@[simp] theorem count_text (chars : List Char) : (text chars).count = 1 := rfl

@[simp] theorem count_set (members : CharClass) : (set members).count = 1 := rfl

@[simp] theorem count_reference (index : Nat) : (reference index).count = 1 := rfl

@[simp] theorem count_group (body : Phrase) : (group body).count = body.count + 1 := by
  simp [count, tally]

@[simp] theorem count_capture (index : Nat) (name : Option String) (body : Phrase) :
    (capture index name body).count = body.count + 1 := by
  simp [count, tally]

@[simp] theorem count_rep (own : Bool) (q : Quantifier) (body : Phrase) :
    (rep own q body).count = body.count + 1 := by
  simp [count, tally]

@[simp] theorem count_marked (piece : Phrase) : (marked piece).count = piece.count :=
  length_stamps true piece

theorem length_flatMap_stamps (outer : Bool) (ps : List Phrase) :
    (ps.flatMap (tally .stamps outer)).length = countIn ps := by
  induction ps with
  | nil => rfl
  | cons p ps ih => rw [List.flatMap_cons, List.length_append, ih, length_stamps, countIn_cons]

theorem length_joined (ps : List Phrase) :
    (tallyEach .stamps false ps ++ Tally.stamps.jointOf false ps.length).length =
      countIn ps + (Tally.stamps.jointOf false ps.length).length := by
  rw [tallyEach_eq, List.length_append, length_flatMap_stamps]

@[simp] theorem count_branch (pieces : List Phrase) :
    (branch pieces).count = countIn pieces + (Tally.stamps.jointOf false pieces.length).length :=
  length_joined pieces

@[simp] theorem count_choice (branches : List Phrase) :
    (choice branches).count =
      countIn branches + (Tally.stamps.jointOf false branches.length).length :=
  length_joined branches

theorem length_joint (outer : Bool) {parts : Nat} (several : parts ≠ 1) :
    (Tally.stamps.jointOf outer parts).length = 1 := by
  rw [Tally.jointOf, if_neg several]
  rfl

/-- `F` puts phrases into one place of a larger phrase, in front of which `n` nodes are
completed. -/
inductive Place : Nat → (Phrase → Phrase) → Prop
  | here : Place 0 fun p => p
  | group {n : Nat} {F : Phrase → Phrase} (h : Place n F) : Place n fun p => .group (F p)
  | capture (index : Nat) (name : Option String) {n : Nat} {F : Phrase → Phrase}
      (h : Place n F) : Place n fun p => .capture index name (F p)
  | rep (own : Bool) (q : Quantifier) {n : Nat} {F : Phrase → Phrase} (h : Place n F) :
      Place n fun p => .rep own q (F p)
  | marked {n : Nat} {F : Phrase → Phrase} (h : Place n F) : Place n fun p => .marked (F p)
  | branch (before after : List Phrase) {n : Nat} {F : Phrase → Phrase} (h : Place n F) :
      Place (countIn before + n) fun p => .branch (before ++ F p :: after)
  | choice (before after : List Phrase) {n : Nat} {F : Phrase → Phrase} (h : Place n F) :
      Place (countIn before + n) fun p => .choice (before ++ F p :: after)

theorem Place.markedIf {n : Nat} {F : Phrase → Phrase} (h : Place n F) (isMarked : Bool) :
    Place n fun p => .markedIf isMarked (F p) := by
  cases isMarked with
  | false => exact h
  | true => exact h.marked

theorem Place.hasMarker_eq {n : Nat} {F : Phrase → Phrase} (h : Place n F) {p p' : Phrase}
    (same : p'.hasMarker = p.hasMarker) : (F p').hasMarker = (F p).hasMarker := by
  induction h with
  | here => exact same
  | group h ih | capture _ _ h ih => exact ih
  | rep own q h ih => exact congrArg (own || ·) ih
  | marked => rfl
  | branch before after h ih | choice before after h ih =>
      simp only [hasMarker, hasMarkerIn_eq, List.any_append, List.any_cons, ih]

end Phrase

open Phrase (countIn)

inductive LastPiece.Place : Nat → (Phrase → LastPiece) → Prop
  | atom (isMarked : Bool) {n : Nat} {F : Phrase → Phrase} (h : Phrase.Place n F) :
      Place n fun p => .atom isMarked (F p)
  | quantified {n : Nat} {F : Phrase → Phrase} (h : Phrase.Place n F) :
      Place n fun p => .quantified (F p)

/-- The place is in one of the branches, or in a piece of the last one that is settled. -/
inductive Level.SettledPlace : Nat → (Phrase → List Phrase) → (Phrase → List Phrase) → Prop
  | piece (branches newer older : List Phrase) {n : Nat} {F : Phrase → Phrase}
      (h : Phrase.Place n F) :
      SettledPlace (countIn branches + countIn older + n) (fun _ => branches)
        fun p => newer ++ F p :: older
  | branch (newer older pieces : List Phrase) {n : Nat} {F : Phrase → Phrase}
      (h : Phrase.Place n F) :
      SettledPlace (countIn older + n) (fun p => newer ++ F p :: older) fun _ => pieces

inductive Level.Place : Nat → (Phrase → Level) → Prop
  | last (branches pieces : List Phrase) {n : Nat} {l : Phrase → LastPiece}
      (h : LastPiece.Place n l) :
      Place (countIn branches + countIn pieces + n) fun p => ⟨branches, pieces, l p⟩
  | settled {n : Nat} {B P : Phrase → List Phrase} (h : SettledPlace n B P) (last : LastPiece) :
      Place n fun p => ⟨B p, P p, last⟩

variable {n : Nat} {F : Phrase → Phrase} {L : Phrase → Level} {G : Phrase → List OpenGroup}
  {B P : Phrase → List Phrase}

theorem LastPiece.Place.toPiece? {l : Phrase → LastPiece} (h : LastPiece.Place n l) :
    ∃ F, Phrase.Place n F ∧ ∀ p, (l p).toPiece? = some (F p) := by
  cases h with
  | atom isMarked h => exact ⟨_, h.markedIf isMarked, fun _ => rfl⟩
  | quantified h => exact ⟨_, h, fun _ => rfl⟩

namespace Level

theorem length_stamps (outer : Bool) (l : Level) :
    (l.tally .stamps outer).length = countIn l.branches + countIn l.pieces +
      countIn l.last.toPiece?.toList := by
  rw [tally, Phrase.length_flatMap_stamps, parts, settled]
  simp [Nat.add_assoc]

theorem SettledPlace.further (h : SettledPlace n B P) (newest : List Phrase) :
    SettledPlace n B fun p => newest ++ P p := by
  cases h with
  | piece branches newer older h =>
      simp only [← List.append_assoc]
      exact .piece branches (newest ++ newer) older h
  | branch newer older pieces h => exact .branch newer older (newest ++ pieces) h

theorem Place.begin (h : Place n L) (last : LastPiece) : Place n fun p => (L p).begin last := by
  cases h with
  | last branches pieces h =>
      obtain ⟨F, place, piece⟩ := h.toPiece?
      simp only [Level.begin, piece]
      exact .settled (.piece branches [] pieces place) last
  | settled h l => exact .settled (h.further l.toPiece?.toList) last

theorem place_begin (outer : Bool) (l : Level) (isMarked : Bool) (h : Phrase.Place n F) :
    Place ((l.tally .stamps outer).length + n) fun p => l.begin (.atom isMarked (F p)) := by
  have place := Place.last l.branches (l.last.toPiece?.toList ++ l.pieces) (.atom isMarked h)
  have length : (l.tally .stamps outer).length =
      countIn l.branches + countIn (l.last.toPiece?.toList ++ l.pieces) := by
    rw [length_stamps, Phrase.countIn_append]
    omega
  rwa [length]

theorem Place.ended (h : Place n L) : ∃ newer older m F, Phrase.Place m F ∧
    n = countIn older + m ∧ ∀ p, (L p).endBranch = ⟨newer ++ F p :: older, [], .none⟩ := by
  cases h with
  | last branches pieces h =>
      obtain ⟨F, place, piece⟩ := h.toPiece?
      refine ⟨[], branches, _, _, place.branch pieces.reverse [], ?_, fun p => ?_⟩
      · rw [Phrase.countIn_reverse, Nat.add_assoc]
      · simp [Level.endBranch, Level.begin, piece]
  | settled h l =>
      cases h with
      | piece branches newer older h =>
          refine ⟨[], branches, _, _, h.branch older.reverse (l.toPiece?.toList ++ newer).reverse,
            ?_, fun p => ?_⟩
          · rw [Phrase.countIn_reverse, Nat.add_assoc]
          · simp [Level.endBranch, Level.begin]
      | branch newer older pieces h =>
          exact ⟨.branch (l.toPiece?.toList ++ pieces).reverse :: newer, older, _, _, h, rfl,
            fun _ => rfl⟩

theorem Place.endBranch (h : Place n L) : Place n fun p => (L p).endBranch := by
  obtain ⟨newer, older, m, F, place, rfl, ended⟩ := h.ended
  simp only [ended]
  exact .settled (.branch newer older [] place) .none

theorem Place.toPhrase (h : Place n L) : Phrase.Place n fun p => (L p).toPhrase := by
  obtain ⟨newer, older, m, F, place, rfl, ended⟩ := h.ended
  have choice := place.choice older.reverse newer.reverse
  simpa [Level.toPhrase, ended] using choice

theorem Place.literal (h : Place n L) (r : Reader) (c : Char) :
    Place n fun p => (Reader.literal { r with level := L p } c).level := by
  have begins := h.begin (.literals r.marks [] c)
  obtain ⟨level, groups, captures, closed, waiting, honors, hasMarker⟩ := r
  cases waiting with
  | one | several => exact begins
  | none =>
      cases h with
      | last branches pieces h => cases h <;> exact begins
      | settled h last =>
          cases last with
          | literals isMarked before d => exact .settled h (.literals isMarked (d :: before) c)
          | none | atom | quantified => exact begins

/-- `Quantifies l own q l'`: the quantifier takes the end of `l`, which becomes `l'`. -/
def Quantifies (l : Level) (own : Bool) (q : Quantifier) (l' : Level) : Prop :=
  ∃ isMarked level body, (∀ r : Reader, r.level = l → r.Takes isMarked level body) ∧
    l' = { level with last := .quantified (.markedIf isMarked (.rep own q body)) }

theorem quantifies_of_takes {r : Reader} {isMarked : Bool} {level : Level} {body : Phrase}
    (takes : r.Takes isMarked level body) (own : Bool) (q : Quantifier) :
    r.level.Quantifies own q
      { level with last := .quantified (.markedIf isMarked (.rep own q body)) } :=
  ⟨isMarked, level, body, fun _ same => takes.of_level same, rfl⟩

theorem Place.quantifies {x : Phrase} {own : Bool} {q : Quantifier} {l : Level} (h : Place n L)
    (taken : (L x).Quantifies own q l) :
    ∃ L', Place n L' ∧ ∀ p, (L p).Quantifies own q (L' p) := by
  obtain ⟨isMarked, level, body, takes, -⟩ := taken
  have takes := takes { Reader.start with level := L x } rfl
  have quantifies {l l' : Level} {body : Phrase} {isMarked : Bool}
      (takes : Reader.Takes { Reader.start with level := l } isMarked l' body) :
      l.Quantifies own q { l' with last := .quantified (.markedIf isMarked (.rep own q body)) } :=
    quantifies_of_takes takes own q
  cases h with
  | last branches pieces h =>
      cases h with
      | @atom isMarked m F h =>
          have place := LastPiece.Place.quantified ((h.rep own q).markedIf isMarked)
          exact ⟨_, .last branches pieces place, fun p => quantifies (.atom rfl)⟩
      | quantified h => cases takes <;> contradiction
  | settled h last =>
      cases takes with
      | atom last =>
          subst last
          exact ⟨_, .settled h _, fun p => quantifies (.atom rfl)⟩
      | single last =>
          subst last
          exact ⟨_, .settled h _, fun p => quantifies (.single rfl)⟩
      | split last =>
          subst last
          exact ⟨_, .settled (h.further _) _, fun p => quantifies (.split rfl)⟩

end Level

/-- The place is in the level or in a level around it. -/
inductive StackPlace : Nat → (Phrase → Level) → (Phrase → List OpenGroup) → Prop
  | level (gs : List OpenGroup) {n : Nat} {L : Phrase → Level} (h : Level.Place n L) :
      StackPlace ((outerTally .stamps gs).length + n) L fun _ => gs
  | enter (l : Level) (g : OpenGroup) {n : Nat} {L : Phrase → Level}
      {G : Phrase → List OpenGroup} (h : StackPlace n L G) :
      StackPlace n (fun _ => l) fun p => { g with outer := L p } :: G p

theorem StackPlace.map (h : StackPlace n L G) (f : Level → Level)
    (change : ∀ {m M}, Level.Place m M → Level.Place m fun p => f (M p)) :
    StackPlace n (fun p => f (L p)) G := by
  cases h with
  | level gs h => exact .level gs (change h)
  | enter l g h => exact .enter (f l) g h

theorem StackPlace.quantifies {x : Phrase} {own : Bool} {q : Quantifier} {l : Level}
    (h : StackPlace n L G) (taken : (L x).Quantifies own q l) :
    ∃ L', StackPlace n L' G ∧ ∀ p, (L p).Quantifies own q (L' p) := by
  cases h with
  | level gs h =>
      obtain ⟨L', place, quantifies⟩ := h.quantifies taken
      exact ⟨L', .level gs place, quantifies⟩
  | enter m g h => exact ⟨_, .enter l g h, fun _ => taken⟩

/-- A place in what has been read.  As many nodes are completed in front of it. -/
inductive Reader.Place : Nat → (Phrase → Reader) → Prop
  | intro {n : Nat} {L : Phrase → Level} {G : Phrase → List OpenGroup} (h : StackPlace n L G)
      (r : Reader) : Place n fun p => { r with level := L p, groups := G p }

namespace Reader

variable {R : Phrase → Reader} {t : Token} {ts : List Token} {x : Phrase} {s : Reader}

theorem length_outerStamps (g : OpenGroup) (gs : List OpenGroup) :
    (outerTally .stamps (g :: gs)).length =
      (outerTally .stamps gs).length + (g.outer.tally .stamps (underMarker gs)).length := by
  simp [outerTally]

theorem place_atom (r : Reader) : Place r.completed r.atom := by
  rw [completed, tally, List.length_append]
  exact .intro (.level r.groups (Level.place_begin _ r.level r.marks .here))
    { r with waiting := .none }

theorem Place.step (h : Place n R) (taken : (R x).step 0 t = .ok s) :
    ∃ S, Place n S ∧ ∀ p, (R p).step 0 t = .ok (S p) := by
  cases h with
  | @intro L G stack r =>
  cases step_eq_ok.1 taken with
  | literal c =>
      have place := stack.map (fun l => (literal { r with level := l } c).level)
        fun h => h.literal r c
      exact ⟨_, .intro place { r with waiting := .none }, fun _ => rfl⟩
  | marker => exact ⟨_, .intro stack (r.marker 0), fun _ => rfl⟩
  | @atom _ body isAtom =>
      have place := stack.map (·.begin (.atom r.marks body)) fun h => h.begin _
      refine ⟨_, .intro place { r with waiting := .none }, fun p => ?_⟩
      have isAtom : IsAtom { r with level := L p, groups := G p } t body := isAtom.of_closed rfl
      exact (Steps.atom isAtom).step_eq
  | opening kind =>
      cases kind with
      | plain =>
          have place := StackPlace.enter .empty ⟨0, r.marks, none, .empty⟩ stack
          exact ⟨_, .intro place { r with waiting := .none }, fun _ => rfl⟩
      | capturing name =>
          have place := StackPlace.enter .empty
            ⟨0, r.marks, some (r.captures + 1, name), .empty⟩ stack
          exact ⟨_, .intro place { r with captures := r.captures + 1, waiting := .none },
            fun _ => rfl⟩
  | @closing g gs none groups =>
      cases stack with
      | @level _ m _ h =>
          cases groups
          have body : Phrase.Place m fun p => g.wrap (L p).toPhrase := by
            unfold OpenGroup.wrap
            cases g.capture with
            | none => exact h.toPhrase.group
            | some capture => exact h.toPhrase.capture capture.1 capture.2
          have place := StackPlace.level gs (g.outer.place_begin (underMarker gs) g.marked body)
          rw [← Nat.add_assoc, ← length_outerStamps] at place
          refine ⟨_, .intro place { r with closed := r.closed ++ g.capture.toList }, fun p => ?_⟩
          exact Steps.step_eq (.closing none rfl)
      | @enter l g _ L G outer =>
          cases groups
          have place := outer.map (·.begin (.atom g.marked (g.wrap l.toPhrase))) fun h => h.begin _
          refine ⟨_, .intro place { r with closed := r.closed ++ g.capture.toList }, fun p => ?_⟩
          have closing := Steps.closing (i := 0)
            (r := { r with level := l, groups := { g with outer := L p } :: G p }) none rfl
          exact closing.step_eq
  | bar none =>
      refine ⟨_, .intro (stack.map Level.endBranch Level.Place.endBranch) r, fun p => ?_⟩
      exact Steps.step_eq (.bar none)
  | quantifier q few takes =>
      obtain ⟨L', place, quantifies⟩ :=
        stack.quantifies (Level.quantifies_of_takes takes r.marks q)
      refine ⟨_, .intro place { r with waiting := .none }, fun p => ?_⟩
      obtain ⟨isMarked, level, body, takes, same⟩ := quantifies p
      rw [same]
      exact Steps.step_eq (.quantifier q few (takes _ rfl))

theorem Place.advance? (h : Place n R) (taken : (R x).advance? ts = some s) :
    ∃ S, Place n S ∧ ∀ p, (R p).advance? ts = some (S p) := by
  induction ts generalizing R with
  | nil => exact ⟨R, h, fun _ => rfl⟩
  | cons t ts ih =>
      obtain ⟨next, step, others⟩ := advance?_cons_eq_some.1 taken
      obtain ⟨S, place, steps⟩ := h.step step
      obtain rfl : S x = next := Except.ok.inj ((steps x).symm.trans step)
      obtain ⟨T, place, taken⟩ := ih place others
      exact ⟨T, place, fun p => advance?_cons_eq_some.2 ⟨S p, steps p, taken p⟩⟩

/-- What is read from an atom on is a phrase with a place for the atom. -/
theorem exists_place {r : Reader} (taken : (r.atom x).advance? ts = some s) (groups : s.groups = [])
    (waiting : s.waiting = .none) :
    ∃ F, Phrase.Place r.completed F ∧ s.level.toPhrase = F x ∧ ∀ p, ∃ f,
      (r.atom p).advance? ts = some f ∧ f.waiting = .none ∧ f.groups = [] ∧
      f.level.toPhrase = F p := by
  obtain ⟨S, place, finishes⟩ := r.place_atom.advance? taken
  obtain rfl : S x = s := Option.some.inj ((finishes x).symm.trans taken)
  generalize r.completed = n at place ⊢
  cases place with
  | @intro L G stack r =>
      cases stack with
      | @level gs m _ h =>
          cases groups
          have none : (outerTally .stamps []).length = 0 := rfl
          rw [none, Nat.zero_add]
          exact ⟨_, h.toPhrase, rfl, fun p => ⟨_, finishes p, waiting, rfl, rfl⟩⟩
      | enter l g h => cases groups

end Reader

end PatternSampler
