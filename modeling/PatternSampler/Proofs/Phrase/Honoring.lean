import PatternSampler.Proofs.Phrase.Reading
import PatternSampler.Proofs.Phrase.Unmarked

/-!
# Readers that do not honor markers

A reader that honors markers and one that does not take the same tokens and refuse the same
ones, for the same reason and at the same position.  Erasing the marks from what the first one
holds comes to what the second one holds.  The first one also keeps whether a marker has been
honored, which is whether a marker stands in its phrase.
-/

namespace PatternSampler

theorem Phrase.unmarked_markedIf (isMarked : Bool) (p : Phrase) :
    (markedIf isMarked p).unmarked = p.unmarked := by
  cases isMarked <;> rfl

namespace LastPiece

def unmarked : LastPiece → LastPiece
  | none => none
  | literals _ before last => literals false before last
  | atom _ body => atom false body.unmarked
  | quantified piece => quantified piece.unmarked

theorem toPiece?_unmarked (last : LastPiece) :
    last.unmarked.toPiece? = last.toPiece?.map Phrase.unmarked := by
  cases last with
  | none | quantified => rfl
  | literals isMarked before last =>
      exact congrArg some
        (Phrase.unmarked_markedIf isMarked (.text (before.reverse ++ [last]))).symm
  | atom isMarked body => exact congrArg some (Phrase.unmarked_markedIf isMarked body).symm

end LastPiece

namespace Level

def unmarked (l : Level) : Level :=
  ⟨l.branches.map Phrase.unmarked, l.pieces.map Phrase.unmarked, l.last.unmarked⟩

theorem unmarked_begin (l : Level) (last : LastPiece) :
    (l.begin last).unmarked = l.unmarked.begin last.unmarked := by
  simp only [unmarked, begin, LastPiece.toPiece?_unmarked, List.map_append]
  cases l.last.toPiece? <;> rfl

theorem unmarked_endBranch (l : Level) : l.endBranch.unmarked = l.unmarked.endBranch := by
  have begins : l.unmarked.begin .none = (l.begin .none).unmarked := (l.unmarked_begin .none).symm
  simp only [endBranch, begins]
  simp [unmarked, LastPiece.unmarked, Phrase.unmarked, Phrase.unmarkedEach_eq]

theorem toPhrase_unmarked (l : Level) : l.unmarked.toPhrase = l.toPhrase.unmarked := by
  simp only [toPhrase, ← unmarked_endBranch, Phrase.unmarked, Phrase.unmarkedEach_eq]
  simp [unmarked]

end Level

def OpenGroup.unmarked (g : OpenGroup) : OpenGroup :=
  { g with marked := false, outer := g.outer.unmarked }

theorem OpenGroup.wrap_unmarked (g : OpenGroup) (body : Phrase) :
    g.unmarked.wrap body.unmarked = (g.wrap body).unmarked := by
  unfold wrap unmarked
  cases g.capture <;> rfl

namespace Reader

variable (r : Reader)

/-- The reader that has taken the same tokens and has honored none of the markers. -/
def unmarked : Reader :=
  { r with
    level := r.level.unmarked
    groups := r.groups.map OpenGroup.unmarked
    honors := false
    hasMarker := false }

theorem marks_unmarked : r.unmarked.marks = false := Bool.and_false _

theorem unmarked_begin (last : LastPiece) :
    unmarked { r with level := r.level.begin last, waiting := .none } =
      { r.unmarked with level := r.unmarked.level.begin last.unmarked, waiting := .none } := by
  simp only [unmarked, Level.unmarked_begin]

theorem unmarked_literal (c : Char) : (r.literal c).unmarked = r.unmarked.literal c := by
  have begins := r.unmarked_begin (.literals r.marks [] c)
  obtain ⟨⟨branches, pieces, last⟩, groups, captures, closed, waiting, honors, hasMarker⟩ := r
  cases waiting with
  | none =>
      cases last with
      | literals => rfl
      | none | atom | quantified => exact begins
  | one | several => exact begins

theorem unmarked_atom (body : Phrase) : (r.atom body).unmarked = r.unmarked.atom body.unmarked := by
  rw [atom, atom, unmarked_begin, marks_unmarked]
  rfl

theorem unmarked_openGroup (i : Nat) (kind : GroupKind) :
    (r.openGroup i kind).unmarked = r.unmarked.openGroup i kind := by
  unfold openGroup
  rw [marks_unmarked]
  cases kind <;> rfl

theorem unmarked_closeGroup (g : OpenGroup) (gs : List OpenGroup) :
    (r.closeGroup g gs).unmarked =
      r.unmarked.closeGroup g.unmarked (gs.map OpenGroup.unmarked) := by
  have body : (g.wrap r.level.toPhrase).unmarked = g.unmarked.wrap r.level.unmarked.toPhrase := by
    rw [Level.toPhrase_unmarked, OpenGroup.wrap_unmarked]
  simp only [closeGroup, unmarked, Level.unmarked_begin, LastPiece.unmarked, body]
  rfl

theorem unmarked_endBranch :
    unmarked { r with level := r.level.endBranch } =
      { r.unmarked with level := r.unmarked.level.endBranch } := by
  simp only [unmarked, Level.unmarked_endBranch]

variable {r} in
theorem Takes.unmarked {isMarked : Bool} {level : Level} {body : Phrase}
    (h : r.Takes isMarked level body) : r.unmarked.Takes false level.unmarked body.unmarked := by
  have same {last : LastPiece} (h : r.level.last = last) :
      r.unmarked.level.last = last.unmarked := congrArg LastPiece.unmarked h
  cases h with
  | atom last => exact .atom (same last)
  | single last => exact .single (same last)
  | split last =>
      rw [Level.unmarked_begin]
      exact .split (same last)

theorem unmarked_quantify (i : Nat) (bounds : Except PatternError Quantifier) :
    (r.quantify i bounds).map unmarked = r.unmarked.quantify i bounds := by
  cases taken : r.quantify i bounds with
  | error e =>
      -- Which error it is depends on the kind of the last piece and on the markers that wait.
      symm
      obtain ⟨⟨branches, pieces, last⟩, groups, captures, closed, waiting, honors, hasMarker⟩ := r
      cases bounds <;> cases waiting <;> cases last <;> try (cases taken <;> rfl)
      all_goals
        rename_i before _
        cases before <;> cases taken <;> rfl
  | ok s =>
      cases steps_of_quantify taken with
      | atom isAtom => cases isAtom
      | @quantifier isMarked level body q few takes =>
          have piece := Phrase.unmarked_markedIf isMarked (.rep r.marks q body)
          rw [quantify_of_takes (r := r.unmarked) q few takes.unmarked, Except.map, marks_unmarked,
            unmarked]
          simp only [Level.unmarked, LastPiece.unmarked, piece]
          rfl

theorem unmarked_step (i : Nat) (t : Token) :
    (r.step i t).map unmarked = r.unmarked.step i t := by
  cases t with
  | literal c => exact congrArg Except.ok (r.unmarked_literal c)
  | marker | invalid => rfl
  | set members => exact congrArg Except.ok (r.unmarked_atom (.set members))
  | guid => exact congrArg Except.ok (r.unmarked_atom .guid)
  | anchor => exact congrArg Except.ok (r.unmarked_atom (.text []))
  | opening kind => exact congrArg Except.ok (r.unmarked_openGroup i kind)
  | closing =>
      obtain ⟨level, groups, captures, closed, waiting, honors, hasMarker⟩ := r
      cases waiting with
      | one | several => rfl
      | none =>
          cases groups with
          | nil => rfl
          | cons g gs => exact congrArg Except.ok (unmarked_closeGroup _ g gs)
  | bar =>
      obtain ⟨level, groups, captures, closed, waiting, honors, hasMarker⟩ := r
      cases waiting with
      | one | several => rfl
      | none => exact congrArg Except.ok (unmarked_endBranch _)
  | quantifier bounds => exact r.unmarked_quantify i bounds
  | reference key =>
      have same : r.unmarked.resolve? key = r.resolve? key := by cases key <;> rfl
      simp only [step, same]
      cases r.resolve? key with
      | none => rfl
      | some index => exact congrArg Except.ok (r.unmarked_atom (.reference index))

/-- The two runs stop at the same token, or they come to readers that differ in marks only. -/
theorem unmarked_run (ts : List (Nat × Token)) :
    (r.run ts).map unmarked = r.unmarked.run ts := by
  induction ts generalizing r with
  | nil => rfl
  | cons t ts ih =>
      rw [run, run, List.foldlM_cons, List.foldlM_cons, ← unmarked_step]
      cases r.step t.1 t.2 with
      | error e => rfl
      | ok next => exact ih next

theorem finish_unmarked : r.unmarked.finish = r.finish.map Phrase.unmarked := by
  obtain ⟨level, groups, captures, closed, waiting, honors, hasMarker⟩ := r
  cases waiting with
  | one | several => rfl
  | none =>
      cases groups with
      | nil => exact congrArg Except.ok level.toPhrase_unmarked
      | cons g gs => rfl

end Reader

/-! ## Markers that are honored -/

theorem Phrase.hasMarker_markedIf (isMarked : Bool) (p : Phrase) :
    (markedIf isMarked p).hasMarker = (isMarked || p.hasMarker) := by
  cases isMarked <;> rfl

namespace Level

def hasMarker (l : Level) : Bool := l.parts.any Phrase.hasMarker

theorem hasMarker_begin (l : Level) (last : LastPiece) :
    (l.begin last).hasMarker = (l.hasMarker || last.toPiece?.toList.any Phrase.hasMarker) := by
  rw [hasMarker, parts_begin, List.any_append, hasMarker]

theorem hasMarker_endBranch (l : Level) : l.endBranch.hasMarker = l.hasMarker := by
  rw [hasMarker, parts_endBranch, branches_endBranch, hasMarker, parts, settled]
  simp [Phrase.hasMarker, Phrase.hasMarkerIn_eq]

theorem hasMarker_toPhrase (l : Level) : l.toPhrase.hasMarker = l.hasMarker := by
  rw [← hasMarker_endBranch, hasMarker, parts_endBranch, toPhrase, Phrase.hasMarker,
    Phrase.hasMarkerIn_eq]

end Level

def OpenGroup.hasMarker (g : OpenGroup) : Bool := g.marked || g.outer.hasMarker

namespace Reader

variable {r s : Reader}

/-- Whether what has been read holds a marker, or one waits. -/
def holdsMarker (r : Reader) : Bool :=
  r.groups.any OpenGroup.hasMarker || r.level.hasMarker || r.marks

theorem holdsMarker_of_resolved (waiting : r.waiting = .none) :
    r.holdsMarker = (r.groups.any OpenGroup.hasMarker || r.level.hasMarker) := by
  rw [holdsMarker, marks_of_resolved waiting, Bool.or_false]

theorem holdsMarker_begin (r : Reader) {last : LastPiece}
    (marks : last.toPiece?.toList.any Phrase.hasMarker = r.marks) :
    holdsMarker { r with level := r.level.begin last, waiting := .none } = r.holdsMarker := by
  refine (holdsMarker_of_resolved rfl).trans ?_
  rw [Level.hasMarker_begin, marks, ← Bool.or_assoc, holdsMarker]

theorem holdsMarker_literal (r : Reader) (c : Char) :
    (r.literal c).holdsMarker = r.holdsMarker := by
  rcases r.literal_cases c with ⟨waiting, isMarked, before, d, last⟩ | ⟨-, begins⟩
  · rw [literal_of_run last waiting]
    simp [holdsMarker, Level.hasMarker, Level.parts, Level.settled, last, marks,
      LastPiece.toPiece?, Phrase.hasMarker_markedIf, Phrase.hasMarker]
  · rw [begins]
    apply holdsMarker_begin
    simp [LastPiece.toPiece?, Phrase.hasMarker_markedIf, Phrase.hasMarker]

theorem holdsMarker_atom (r : Reader) {body : Phrase} (plain : body.hasMarker = false) :
    (r.atom body).holdsMarker = r.holdsMarker := by
  apply holdsMarker_begin
  simp [LastPiece.toPiece?, Phrase.hasMarker_markedIf, plain]

theorem holdsMarker_openGroup (r : Reader) (i : Nat) (kind : GroupKind) :
    (r.openGroup i kind).holdsMarker = r.holdsMarker := by
  have empty : Level.empty.hasMarker = false := rfl
  cases kind <;> refine (holdsMarker_of_resolved rfl).trans ?_ <;>
    simp [openGroup, holdsMarker, OpenGroup.hasMarker, empty, Bool.or_assoc, Bool.or_comm]

theorem hasMarker_wrap (g : OpenGroup) (body : Phrase) :
    (g.wrap body).hasMarker = body.hasMarker := by
  unfold OpenGroup.wrap
  cases g.capture <;> rfl

theorem holdsMarker_closeGroup {g : OpenGroup} {gs : List OpenGroup} (groups : r.groups = g :: gs) :
    (r.closeGroup g gs).holdsMarker = r.holdsMarker := by
  simp [closeGroup, holdsMarker, groups, marks, Level.hasMarker_begin, LastPiece.toPiece?,
    Phrase.hasMarker_markedIf, hasMarker_wrap, Level.hasMarker_toPhrase, OpenGroup.hasMarker,
    Bool.or_assoc, Bool.or_comm, Bool.or_left_comm]

theorem Takes.hasMarker {isMarked : Bool} {level : Level} {body : Phrase}
    (h : r.Takes isMarked level body) :
    (level.settled.any Phrase.hasMarker || isMarked || body.hasMarker) = r.level.hasMarker := by
  cases h with
  | atom last | single last =>
      simp [Level.hasMarker, Level.parts, last, LastPiece.toPiece?, Phrase.hasMarker_markedIf,
        Bool.or_assoc]
  | split last =>
      rw [Level.settled_begin]
      simp [Level.hasMarker, Level.parts, Level.settled, last, LastPiece.toPiece?,
        Phrase.hasMarker_markedIf, Phrase.hasMarker]

theorem holdsMarker_quantifier {isMarked : Bool} {level : Level} {body : Phrase} (q : Quantifier)
    (takes : r.Takes isMarked level body) :
    holdsMarker { r with
      level := { level with last := .quantified (.markedIf isMarked (.rep r.marks q body)) }
      waiting := .none } = r.holdsMarker := by
  refine (holdsMarker_of_resolved rfl).trans ?_
  rw [holdsMarker, ← takes.hasMarker]
  simp [Level.hasMarker, Level.parts, Level.settled, LastPiece.toPiece?,
    Phrase.hasMarker_markedIf, Phrase.hasMarker, Bool.or_assoc, Bool.or_comm, Bool.or_left_comm]

theorem IsAtom.hasMarker {t : Token} {body : Phrase} (h : r.IsAtom t body) :
    body.hasMarker = false := by
  cases h <;> rfl

/-- A step that takes no marker keeps both sides; a marker that is honored waits. -/
theorem holdsMarker_step {i : Nat} {t : Token} (tracked : r.hasMarker = r.holdsMarker)
    (taken : r.step i t = .ok s) : s.hasMarker = s.holdsMarker := by
  cases step_eq_ok.1 taken with
  | literal c => exact tracked.trans (r.holdsMarker_literal c).symm
  | marker =>
      have waits : (r.waiting.add i).isMarked = true := by cases r.waiting <;> rfl
      rw [marker, tracked]
      simp only [holdsMarker, marks, waits]
      cases r.honors <;> simp
  | atom isAtom => exact tracked.trans (r.holdsMarker_atom isAtom.hasMarker).symm
  | opening kind =>
      have kept : (r.openGroup i kind).hasMarker = r.hasMarker := by cases kind <;> rfl
      exact kept.trans (tracked.trans (r.holdsMarker_openGroup i kind).symm)
  | closing waiting groups => exact tracked.trans (holdsMarker_closeGroup groups).symm
  | bar waiting =>
      rw [holdsMarker, Level.hasMarker_endBranch]
      exact tracked
  | quantifier q few takes => exact tracked.trans (holdsMarker_quantifier q takes).symm

theorem holdsMarker_run {ts : List (Nat × Token)} (tracked : r.hasMarker = r.holdsMarker)
    (taken : r.run ts = .ok s) : s.hasMarker = s.holdsMarker := by
  induction ts generalizing r with
  | nil =>
      cases taken
      exact tracked
  | cons t ts ih =>
      rw [run, List.foldlM_cons, bind_eq_ok] at taken
      obtain ⟨next, step, taken⟩ := taken
      exact ih (holdsMarker_step tracked step) taken

theorem hasMarker_of_finish {p : Phrase} (tracked : r.hasMarker = r.holdsMarker)
    (finished : r.finish = .ok p) : r.hasMarker = p.hasMarker := by
  obtain ⟨waiting, groups, rfl⟩ := finish_eq_ok.1 finished
  simp [tracked, holdsMarker_of_resolved waiting, groups, Level.hasMarker_toPhrase]

/-! ## The two runs over a text -/

theorem read_true (text : List Char) :
    read true text = (Phrase.read text).map fun p => (p, p.hasMarker) := by
  have start : { start with honors := true } = start := rfl
  rw [read, Phrase.read_eq, start]
  cases taken : Reader.start.run (tokens text) with
  | error e => rfl
  | ok r =>
      have tracked : r.hasMarker = r.holdsMarker := holdsMarker_run rfl taken
      change (r.finish >>= fun p => pure (p, r.hasMarker)) = r.finish.map _
      cases finished : r.finish with
      | error e => rfl
      | ok p =>
          have has := hasMarker_of_finish tracked finished
          exact congrArg (fun has => Except.ok (p, has)) has

/-- A text that is read without honoring its markers is read like with them, but for the marks. -/
theorem read_false (text : List Char) :
    read false text = (Phrase.read text).map fun p => (p.unmarked, false) := by
  have start : { start with honors := false } = start.unmarked := rfl
  rw [read, Phrase.read_eq, start, ← unmarked_run]
  cases Reader.start.run (tokens text) with
  | error e => rfl
  | ok r =>
      change (r.unmarked.finish >>= fun p => pure (p, false)) = r.finish.map _
      rw [finish_unmarked]
      cases r.finish <;> rfl

end Reader

end PatternSampler
