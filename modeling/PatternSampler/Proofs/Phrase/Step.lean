import PatternSampler.Phrase.Reader
import PatternSampler.Proofs.Token.WellFormed

/-!
# What a step does

A reader that takes a token has done one of seven things.  What holds along every reading is
shown of each of them and does not look into the reader again.
-/

namespace PatternSampler

namespace Reader

variable {r s : Reader} {i : Nat} {t : Token}

theorem marks_of_resolved (waiting : r.waiting = .none) : r.marks = false := by
  rw [marks, waiting]
  rfl

theorem literal_of_run {m : Bool} {before : List Char} {c : Char}
    (last : r.level.last = .literals m before c) (waiting : r.waiting = .none) (d : Char) :
    r.literal d = { r with level := { r.level with last := .literals m (c :: before) d } } := by
  obtain ⟨⟨branches, pieces, l⟩, groups, captures, closed, w, honors, hasMarker⟩ := r
  cases last
  cases waiting
  rfl

theorem literal_cases (r : Reader) (c : Char) :
    (r.waiting = .none ∧ ∃ m before last, r.level.last = .literals m before last) ∨
      (r.waiting = .none → ∀ m before last, r.level.last ≠ .literals m before last) ∧
        r.literal c = { r with
          level := r.level.begin (.literals r.marks [] c), waiting := .none } := by
  unfold literal
  split
  · rename_i waiting literals
    exact .inl ⟨waiting, _, _, _, literals⟩
  · rename_i begins
    exact .inr ⟨fun waiting m before last literals => begins m before last waiting literals, rfl⟩

/-- The token is an atom of its own, which the reader takes for `body`. -/
inductive IsAtom (r : Reader) : Token → Phrase → Prop
  | set (members : CharClass) : IsAtom r (.set members) (.set members)
  | guid : IsAtom r .guid .guid
  | anchor : IsAtom r .anchor (.text [])
  | reference {key : GroupKey} {index : Nat} (resolved : r.resolve? key = some index) :
      IsAtom r (.reference key) (.reference index)

theorem IsAtom.of_closed {r r' : Reader} {body : Phrase} (h : r.IsAtom t body)
    (closed : r'.closed = r.closed) : r'.IsAtom t body := by
  cases h with
  | set members => exact .set members
  | guid => exact .guid
  | anchor => exact .anchor
  | @reference key index resolved =>
      have same : r'.resolve? key = r.resolve? key := by
        cases key <;> simp only [resolve?, closed]
      exact .reference (same.trans resolved)

/-- What a quantifier takes: an atom, a literal that stands alone, or the last one of a
run, whose rest becomes a piece of its own. -/
inductive Takes (r : Reader) : Bool → Level → Phrase → Prop
  | atom {marked : Bool} {body : Phrase} (last : r.level.last = .atom marked body) :
      Takes r marked r.level body
  | single {marked : Bool} {c : Char} (last : r.level.last = .literals marked [] c) :
      Takes r marked r.level (.text [c])
  | split {marked : Bool} {before : List Char} {c d : Char}
      (last : r.level.last = .literals marked (c :: before) d) :
      Takes r false ({ r.level with last := .literals marked before c }.begin .none) (.text [d])

theorem Takes.of_level {r r' : Reader} {marked : Bool} {level : Level} {body : Phrase}
    (h : r.Takes marked level body) (same : r'.level = r.level) : r'.Takes marked level body := by
  cases h with
  | atom last =>
      rw [← same] at last ⊢
      exact .atom last
  | single last =>
      rw [← same] at last ⊢
      exact .single last
  | split last =>
      rw [← same] at last ⊢
      exact .split last

inductive Steps (r : Reader) (i : Nat) : Token → Reader → Prop
  | literal (c : Char) : Steps r i (.literal c) (r.literal c)
  | marker : Steps r i .marker (r.marker i)
  | atom {t : Token} {body : Phrase} (isAtom : r.IsAtom t body) : Steps r i t (r.atom body)
  | opening (kind : GroupKind) : Steps r i (.opening kind) (r.openGroup i kind)
  | closing {g : OpenGroup} {gs : List OpenGroup} (waiting : r.waiting = .none)
      (groups : r.groups = g :: gs) : Steps r i .closing (r.closeGroup g gs)
  | bar (waiting : r.waiting = .none) : Steps r i .bar { r with level := r.level.endBranch }
  | quantifier {marked : Bool} {level : Level} {body : Phrase} (q : Quantifier)
      (few : ∀ first, r.waiting ≠ .several first) (takes : r.Takes marked level body) :
      Steps r i (.quantifier (.ok q))
        { r with
          level := { level with
            last := .quantified (.markedIf marked (.rep r.marks q body)) }
          waiting := .none }

theorem needNoMarker_eq_ok {x : Unit} : r.needNoMarker = .ok x ↔ r.waiting = .none := by
  unfold needNoMarker
  cases r.waiting with
  | none => simp [pure, Except.pure]
  | one | several => simp

theorem steps_of_quantify {bounds : Except PatternError Quantifier}
    (taken : r.quantify i bounds = .ok s) : r.Steps i (.quantifier bounds) s := by
  have few : ∀ first, r.waiting ≠ .several first := by
    intro first waiting
    simp only [quantify, waiting] at taken
    cases taken
  unfold quantify at taken
  cases bounds with
  | error e => split at taken <;> cases taken
  | ok q =>
      split at taken
      · cases taken
      · cases taken
      · cases taken
      · cases taken
      · rename_i last _
        cases taken
        exact .quantifier q few (.atom last)
      · rename_i last _
        cases taken
        exact .quantifier q few (.single last)
      · rename_i last _
        cases taken
        exact .quantifier q few (.split last)

theorem quantify_of_takes {marked : Bool} {level : Level} {body : Phrase} (q : Quantifier)
    (few : ∀ first, r.waiting ≠ .several first) (takes : r.Takes marked level body) :
    r.quantify i (.ok q) = .ok
      { r with
        level := { level with
          last := .quantified (.markedIf marked (.rep r.marks q body)) }
        waiting := .none } := by
  cases waiting : r.waiting with
  | several first => exact absurd waiting (few first)
  | none | one =>
      cases takes with
      | atom last | single last | split last =>
          simp only [quantify, waiting, last]
          rfl

theorem steps_of_step (taken : r.step i t = .ok s) : r.Steps i t s := by
  cases t with
  | literal c =>
      cases taken
      exact .literal c
  | marker =>
      cases taken
      exact .marker
  | set members =>
      cases taken
      exact .atom (.set members)
  | guid =>
      cases taken
      exact .atom .guid
  | anchor =>
      cases taken
      exact .atom .anchor
  | reference key =>
      simp only [step] at taken
      cases resolved : r.resolve? key with
      | none => simp [resolved] at taken
      | some index =>
          rw [resolved] at taken
          cases taken
          exact .atom (.reference resolved)
  | opening kind =>
      cases taken
      exact .opening kind
  | closing =>
      obtain ⟨_, unmarked, taken⟩ := bind_eq_ok.1 taken
      have waiting := needNoMarker_eq_ok.1 unmarked
      cases groups : r.groups with
      | nil => simp [groups] at taken
      | cons g gs =>
          rw [groups] at taken
          cases taken
          exact .closing waiting groups
  | bar =>
      obtain ⟨_, unmarked, taken⟩ := bind_eq_ok.1 taken
      cases taken
      exact .bar (needNoMarker_eq_ok.1 unmarked)
  | quantifier bounds => exact steps_of_quantify taken
  | invalid e => cases taken

theorem Steps.step_eq (steps : r.Steps i t s) : r.step i t = .ok s := by
  cases steps with
  | literal | marker | opening => rfl
  | atom isAtom =>
      cases isAtom with
      | set | guid | anchor => rfl
      | reference resolved =>
          simp only [step, resolved]
          rfl
  | closing waiting groups =>
      simp only [step, needNoMarker, waiting, groups]
      rfl
  | bar waiting =>
      simp only [step, needNoMarker, waiting]
      rfl
  | quantifier q few takes => exact quantify_of_takes q few takes

theorem step_eq_ok : r.step i t = .ok s ↔ r.Steps i t s :=
  ⟨steps_of_step, Steps.step_eq⟩

theorem honors_step (taken : r.step i t = .ok s) : s.honors = r.honors := by
  cases step_eq_ok.1 taken with
  | opening kind => cases kind <;> rfl
  | _ => rfl

theorem finish_eq_ok {p : Phrase} :
    r.finish = .ok p ↔ r.waiting = .none ∧ r.groups = [] ∧ r.level.toPhrase = p := by
  rw [finish, bind_eq_ok]
  simp only [needNoMarker_eq_ok, exists_and_left, exists_const]
  cases r.groups with
  | nil => simp [pure, Except.pure]
  | cons g gs => simp [throw, throwThe, MonadExceptOf.throw]

end Reader

end PatternSampler
