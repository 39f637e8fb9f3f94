import Mathlib.Data.List.Forall2
import PatternSampler.Proofs.Phrase.Advance

/-!
# Reading alike

Readers never look into the phrases that they have read.  So from readers that hold alike
phrases the same tokens lead to alike readers, for every likeness that reading keeps.  One
of the readers may stand inside a larger text: its outermost level then has further
branches below those of the other one, and further groups are open around it.
-/

namespace PatternSampler

/-- A likeness of phrases that is kept when phrases are put together.  The second phrase
counts its capturing groups from `d` on. -/
structure Phrase.Likeness (d : Nat) (E : Phrase → Phrase → Prop) : Prop where
  text : ∀ chars, E (.text chars) (.text chars)
  set : ∀ members, E (.set members) (.set members)
  guid : E .guid .guid
  group : ∀ {b b'}, E b b' → E (.group b) (.group b')
  capture : ∀ {b b'} index name, E b b' → E (.capture index name b) (.capture (index + d) name b')
  rep : ∀ {b b'} own own' q, E b b' → E (.rep own q b) (.rep own' q b')
  markedIf : ∀ {p p'} m m', E p p' → E (.markedIf m p) (.markedIf m' p')
  branch : ∀ {ps ps'}, List.Forall₂ E ps ps' → E (.branch ps) (.branch ps')
  choice : ∀ {ps ps'}, List.Forall₂ E ps ps' → E (.choice ps) (.choice ps')

variable {d : Nat} {E : Phrase → Phrase → Prop} {B : List Phrase} {G : List OpenGroup}

inductive LastPiece.Like (E : Phrase → Phrase → Prop) : LastPiece → LastPiece → Prop
  | none : Like E none none
  | literals (m m' : Bool) (before : List Char) (last : Char) :
      Like E (literals m before last) (literals m' before last)
  | atom {b b' : Phrase} (m m' : Bool) (h : E b b') : Like E (atom m b) (atom m' b')
  | quantified {p p' : Phrase} (h : E p p') : Like E (quantified p) (quantified p')

theorem LastPiece.Like.toPiece? {l l' : LastPiece} (hE : Phrase.Likeness d E)
    (h : LastPiece.Like E l l') :
    List.Forall₂ E l.toPiece?.toList l'.toPiece?.toList := by
  cases h with
  | none => exact .nil
  | literals m m' before last => exact .cons (hE.markedIf m m' (hE.text _)) .nil
  | atom m m' h => exact .cons (hE.markedIf m m' h) .nil
  | quantified h => exact .cons h .nil

/-- Levels with alike phrases, where the second one has the branches `B` below. -/
structure Level.Like (E : Phrase → Phrase → Prop) (B : List Phrase) (l l' : Level) : Prop where
  branches : ∃ own, l'.branches = own ++ B ∧ List.Forall₂ E l.branches own
  pieces : List.Forall₂ E l.pieces l'.pieces
  last : LastPiece.Like E l.last l'.last

namespace Level.Like

variable {l l' : Level}

theorem empty : Level.Like E [] .empty .empty :=
  ⟨⟨[], rfl, .nil⟩, .nil, .none⟩

theorem begin (hE : Phrase.Likeness d E) (h : Level.Like E B l l') {last last' : LastPiece}
    (hlast : LastPiece.Like E last last') : Level.Like E B (l.begin last) (l'.begin last') :=
  ⟨h.branches, List.rel_append (h.last.toPiece? hE) h.pieces, hlast⟩

theorem endBranch (hE : Phrase.Likeness d E) (h : Level.Like E B l l') :
    Level.Like E B l.endBranch l'.endBranch := by
  have ended := h.begin hE .none
  obtain ⟨own, branches, alike⟩ := ended.branches
  refine ⟨⟨.branch (l'.begin .none).pieces.reverse :: own, ?_, ?_⟩, .nil, .none⟩
  · exact congrArg (Phrase.branch (l'.begin .none).pieces.reverse :: ·) branches
  · exact .cons (hE.branch (List.rel_reverse ended.pieces)) alike

theorem toPhrase (hE : Phrase.Likeness d E) (h : Level.Like E [] l l') :
    E l.toPhrase l'.toPhrase := by
  obtain ⟨own, branches, alike⟩ := (h.endBranch hE).branches
  rw [List.append_nil] at branches
  rw [Level.toPhrase, Level.toPhrase, branches]
  exact hE.choice (List.rel_reverse alike)

end Level.Like

def raise (d : Nat) (capture : Nat × Option String) : Nat × Option String :=
  (capture.1 + d, capture.2)

/-- A level and the groups around it, alike up to the groups `G` further out.  The markers of
the groups may differ. -/
inductive StackLike (d : Nat) (E : Phrase → Phrase → Prop) (B : List Phrase)
    (G : List OpenGroup) : Level → List OpenGroup → Level → List OpenGroup → Prop
  | base {l l' : Level} (h : Level.Like E B l l') : StackLike d E B G l [] l' G
  | enter {l l' : Level} {g g' : OpenGroup} {gs gs' : List OpenGroup} (h : Level.Like E [] l l')
      (capture : g'.capture = g.capture.map (raise d))
      (outer : StackLike d E B G g.outer gs g'.outer gs') :
      StackLike d E B G l (g :: gs) l' (g' :: gs')

theorem StackLike.map {l l' m m' : Level} {gs gs' : List OpenGroup}
    (h : StackLike d E B G l gs l' gs')
    (change : ∀ B, Level.Like E B l l' → Level.Like E B m m') :
    StackLike d E B G m gs m' gs' := by
  cases h with
  | base h => exact .base (change B h)
  | enter h capture outer => exact .enter (change [] h) capture outer

theorem StackLike.last {l l' : Level} {gs gs' : List OpenGroup}
    (h : StackLike d E B G l gs l' gs') : LastPiece.Like E l.last l'.last := by
  cases h with
  | base h => exact h.last
  | enter h => exact h.last

theorem StackLike.level {l l' : Level} {gs gs' : List OpenGroup}
    (h : StackLike d E [] G l gs l' gs') : Level.Like E [] l l' := by
  cases h with
  | base h => exact h
  | enter h => exact h

structure Reader.Like (d : Nat) (E : Phrase → Phrase → Prop) (B : List Phrase)
    (G : List OpenGroup) (K : List (Nat × Option String)) (r r' : Reader) : Prop where
  stack : StackLike d E B G r.level r.groups r'.level r'.groups
  captures : r'.captures = r.captures + d
  closed : r'.closed = K ++ r.closed.map (raise d)
  waiting : r'.waiting = r.waiting

namespace Reader.Like

variable {K : List (Nat × Option String)} {r r' : Reader}

theorem atom (hE : Phrase.Likeness d E) (h : Like d E B G K r r') {b b' : Phrase} (hb : E b b') :
    Like d E B G K (r.atom b) (r'.atom b') where
  stack := h.stack.map fun _ hl => hl.begin hE (.atom _ _ hb)
  captures := h.captures
  closed := h.closed
  waiting := rfl

theorem literal (hE : Phrase.Likeness d E) (h : Like d E B G K r r') (c : Char) :
    Like d E B G K (r.literal c) (r'.literal c) := by
  have first (w w' : Bool) : Like d E B G K
      { r with level := r.level.begin (.literals w [] c), waiting := .none }
      { r' with level := r'.level.begin (.literals w' [] c), waiting := .none } :=
    ⟨h.stack.map fun _ hl => hl.begin hE (.literals _ _ _ _), h.captures, h.closed, rfl⟩
  have last := h.stack.last
  unfold Reader.literal
  rw [h.waiting]
  cases hw : r.waiting with
  | one | several => exact first _ _
  | none =>
      cases hl : r.level.last with
      | literals m before c' =>
          rw [hl] at last
          cases hl' : r'.level.last <;> rw [hl'] at last <;> cases last
          refine ⟨h.stack.map fun B hlevel => ?_, h.captures, h.closed, rfl⟩
          exact ⟨hlevel.branches, hlevel.pieces, .literals _ _ _ _⟩
      | none | atom | quantified =>
          rw [hl] at last
          cases hl' : r'.level.last <;> rw [hl'] at last <;> cases last
          exact first _ _

theorem openGroup (h : Like d E B G K r r') (i : Nat) (kind : GroupKind) :
    Like d E B G K (r.openGroup i kind) (r'.openGroup i kind) := by
  cases kind with
  | plain => exact ⟨.enter .empty rfl h.stack, h.captures, h.closed, rfl⟩
  | capturing name =>
      have captures : r'.captures + 1 = r.captures + 1 + d := by
        rw [h.captures]
        omega
      refine ⟨.enter .empty ?_ h.stack, captures, h.closed, rfl⟩
      exact congrArg (fun n => some (n, name)) captures

theorem closeGroup (hE : Phrase.Likeness d E) {g : OpenGroup} {gs : List OpenGroup}
    (h : Like d E B G K r r') (groups : r.groups = g :: gs) :
    ∃ g' gs', r'.groups = g' :: gs' ∧
      Like d E B G K (r.closeGroup g gs) (r'.closeGroup g' gs') := by
  have stack := h.stack
  rw [groups] at stack
  cases stack_eq : r'.groups with
  | nil =>
      rw [stack_eq] at stack
      cases stack
  | cons g' gs' =>
      rw [stack_eq] at stack
      cases stack with
      | enter hl capture outer =>
          have body : E (g.wrap r.level.toPhrase) (g'.wrap r'.level.toPhrase) := by
            have inner := hl.toPhrase hE
            rw [OpenGroup.wrap, OpenGroup.wrap, capture]
            cases g.capture with
            | none => exact hE.group inner
            | some capture => exact hE.capture _ _ inner
          refine ⟨g', gs', rfl, ?_, h.captures, ?_, h.waiting⟩
          · exact outer.map fun _ ho => ho.begin hE (.atom _ _ body)
          · change r'.closed ++ g'.capture.toList =
              K ++ (r.closed ++ g.capture.toList).map (raise d)
            rw [h.closed, capture, List.map_append, List.append_assoc]
            cases g.capture <;> rfl

theorem takes (hE : Phrase.Likeness d E) (h : Like d E B G K r r') {marked : Bool} {level : Level}
    {body : Phrase} (takes : r.Takes marked level body) :
    ∃ marked' level' body', r'.Takes marked' level' body' ∧ E body body' ∧
      ∀ B, Level.Like E B r.level r'.level → Level.Like E B level level' := by
  have last := h.stack.last
  cases takes with
  | atom taken =>
      rw [taken] at last
      cases taken' : r'.level.last <;> rw [taken'] at last <;> cases last
      rename_i alike
      exact ⟨_, _, _, .atom taken', alike, fun _ hl => hl⟩
  | single taken =>
      rw [taken] at last
      cases taken' : r'.level.last <;> rw [taken'] at last <;> cases last
      exact ⟨_, _, _, .single taken', hE.text _, fun _ hl => hl⟩
  | @split m before c _ taken =>
      rw [taken] at last
      cases taken' : r'.level.last <;> rw [taken'] at last <;> cases last
      rename_i m'
      refine ⟨_, _, _, .split taken', hE.text _, fun B hl => ?_⟩
      have run : Level.Like E B { r.level with last := .literals m before c }
          { r'.level with last := .literals m' before c } :=
        ⟨hl.branches, hl.pieces, .literals m m' before c⟩
      exact run.begin hE .none

theorem isAtom (hE : Phrase.Likeness d E) {t : Token} {body : Phrase}
    (known : ∀ key, t = .reference key → ∀ index, r.resolve? key = some index →
      ∃ index', r'.resolve? key = some index' ∧ E (.reference index) (.reference index'))
    (isAtom : r.IsAtom t body) : ∃ body', r'.IsAtom t body' ∧ E body body' := by
  cases isAtom with
  | set members => exact ⟨_, .set members, hE.set members⟩
  | guid => exact ⟨_, .guid, hE.guid⟩
  | anchor => exact ⟨_, .anchor, hE.text []⟩
  | reference resolved =>
      obtain ⟨index', resolved', alike⟩ := known _ rfl _ resolved
      exact ⟨_, .reference resolved', alike⟩

theorem step (hE : Phrase.Likeness d E) (h : Like d E B G K r r') {next : Reader} {i : Nat}
    {t : Token} (known : ∀ key, t = .reference key → ∀ index, r.resolve? key = some index →
      ∃ index', r'.resolve? key = some index' ∧ E (.reference index) (.reference index'))
    (taken : r.step i t = .ok next) :
    ∃ next', r'.step i t = .ok next' ∧ Like d E B G K next next' := by
  cases step_eq_ok.1 taken with
  | literal c => exact ⟨_, rfl, h.literal hE c⟩
  | marker => exact ⟨_, rfl, h.stack, h.captures, h.closed, congrArg (Waiting.add i) h.waiting⟩
  | atom isAtom =>
      obtain ⟨body', isAtom', alike⟩ := Like.isAtom hE known isAtom
      exact ⟨_, step_eq_ok.2 (.atom isAtom'), h.atom hE alike⟩
  | opening kind => exact ⟨_, rfl, h.openGroup i kind⟩
  | closing waiting groups =>
      obtain ⟨g', gs', groups', alike⟩ := h.closeGroup hE groups
      exact ⟨_, step_eq_ok.2 (.closing (h.waiting.trans waiting) groups'), alike⟩
  | bar waiting =>
      refine ⟨_, step_eq_ok.2 (.bar (h.waiting.trans waiting)), ?_, h.captures, h.closed, h.waiting⟩
      exact h.stack.map fun _ hl => hl.endBranch hE
  | quantifier q few takes =>
      obtain ⟨marked', level', body', takes', alike, change⟩ := h.takes hE takes
      have few' : ∀ first, r'.waiting ≠ .several first := h.waiting ▸ few
      refine ⟨_, step_eq_ok.2 (.quantifier q few' takes'), ?_, h.captures, h.closed, rfl⟩
      refine h.stack.map fun B hl => ?_
      have hl' := change B hl
      exact ⟨hl'.branches, hl'.pieces, .quantified (hE.markedIf _ _ (hE.rep _ _ q alike))⟩

theorem advance? (hE : Phrase.Likeness d E) (h : Like d E B G K r r') {ts : List Token}
    (known : ∀ key, .reference key ∈ ts → ∀ q q', Like d E B G K q q' →
      ∀ index, q.resolve? key = some index →
        ∃ index', q'.resolve? key = some index' ∧ E (.reference index) (.reference index'))
    {f : Reader} (taken : r.advance? ts = some f) :
    ∃ f', r'.advance? ts = some f' ∧ Like d E B G K f f' := by
  induction ts generalizing r r' with
  | nil =>
      cases taken
      exact ⟨r', rfl, h⟩
  | cons t ts ih =>
      obtain ⟨next, step, others⟩ := advance?_cons_eq_some.1 taken
      obtain ⟨next', step', alike⟩ := h.step hE (fun key same =>
        known key (same ▸ List.mem_cons_self) r r' h) step
      obtain ⟨f', others', alike⟩ :=
        ih alike (fun key listed => known key (List.mem_cons_of_mem t listed)) others
      exact ⟨f', advance?_cons_eq_some.2 ⟨next', step', others'⟩, alike⟩

end Reader.Like

end PatternSampler
