import PatternSampler.Proofs.Grammar.Tokens
import PatternSampler.Proofs.Grammar.Written
import PatternSampler.Proofs.Pattern.Markers

/-!
# Reading follows the grammar

At every moment, what a reader has taken is the text of the parts that it holds, from the
outermost open group to the markers that wait at the end.  A token moves or extends one of the
parts and its spelling comes last.  So a pattern that is accepted is an expression, and its tree
is the tree of a derivation.
-/

namespace PatternSampler

open Grammar

variable {s s' s'' : Scope} {u v w text : List Char}

/-- The text of the last piece, with the markers in front of it. -/
inductive LastPiece.Reads : Scope → List Char → LastPiece → Scope → Prop
  | none (s : Scope) : Reads s [] .none s
  | literals (count : Nat) (isMarked : Bool) {s : Scope} {w before : List Char} {last : Char}
      (h : Literals w (before.reverse ++ [last])) :
      Reads s (markers count ++ w) (.literals isMarked before last) s
  | atom (count : Nat) (isMarked : Bool) {s s' : Scope} {w : List Char} {body : Phrase}
      (h : Written Atom s w body s') : Reads s (markers count ++ w) (.atom isMarked body) s'
  | quantified {s s' : Scope} {w : List Char} {piece : Phrase} (h : Written Piece s w piece s') :
      Reads s w (.quantified piece) s'

theorem LastPiece.Reads.pieces {last : LastPiece} {ps : List Phrase} (h : last.Reads s' w s'')
    (before : WrittenEach Pieces s v ps s') :
    WrittenEach Pieces s (v ++ w) (ps ++ last.toPiece?.toList) s'' := by
  cases h with
  | none => simpa [toPiece?] using before
  | literals count isMarked run =>
      exact before.snoc ((Written.literals _ (by simp) run).plain count isMarked)
  | atom count isMarked atom => exact before.snoc (atom.plain count isMarked)
  | quantified piece => exact before.snoc piece

inductive Barred : Scope → List Char → List Phrase → Scope → Prop
  | none (s : Scope) : Barred s [] [] s
  | some {s s' : Scope} {w : List Char} {branches : List Phrase}
      (h : WrittenEach Branches s w branches s') : Barred s (w ++ ['|']) branches s'

theorem Barred.next {branches : List Phrase} {branch : Phrase} (h : Barred s v branches s')
    (next : Written Branch s' w branch s'') :
    WrittenEach Branches s (v ++ w) (branches ++ [branch]) s'' := by
  cases h with
  | none => exact next.single
  | some before => simpa using before.bar next

namespace Level

variable {l : Level}

def Settles (s : Scope) (w : List Char) (l : Level) (s' : Scope) : Prop :=
  ∃ u v between, w = u ++ v ∧ Barred s u l.branches.reverse between ∧
    WrittenEach Pieces between v l.pieces.reverse s'

inductive Reads : Scope → List Char → Level → Scope → Prop
  | intro {s s' s'' : Scope} {v w : List Char} {l : Level} (settled : l.Settles s v s')
      (last : l.last.Reads s' w s'') : Reads s (v ++ w) l s''

theorem settles_empty (s : Scope) : empty.Settles s [] s :=
  ⟨[], [], s, rfl, .none s, writtenEach_nil s⟩

theorem Reads.settles (h : l.Reads s w s') (last : LastPiece) : (l.begin last).Settles s w s' := by
  obtain ⟨⟨u, v, between, rfl, branches, pieces⟩, read⟩ := h
  refine ⟨u, _, between, List.append_assoc _ _ _, branches, ?_⟩
  have all := read.pieces pieces
  simp only [begin, List.reverse_append]
  cases part : l.last.toPiece? <;> simpa [part] using all

theorem Reads.begin {last : LastPiece} (h : l.Reads s v s') (next : last.Reads s' w s'') :
    (l.begin last).Reads s (v ++ w) s'' :=
  .intro (h.settles last) next

theorem Reads.branches (h : l.Reads s w s') :
    WrittenEach Branches s w l.endBranch.branches.reverse s' := by
  obtain ⟨⟨u, v, between, rfl, branches, pieces⟩, read⟩ := h
  rw [branches_endBranch, List.append_assoc]
  exact branches.next (read.pieces pieces).branch

theorem Reads.endBranch (h : l.Reads s w s') : l.endBranch.Reads s (w ++ ['|']) s' := by
  have settled : l.endBranch.Settles s (w ++ ['|']) s' :=
    ⟨_, [], s', (List.append_nil _).symm, .some h.branches, writtenEach_nil s'⟩
  simpa using Reads.intro settled (.none s')

theorem Reads.toPhrase (h : l.Reads s w s') : Written Expr s w l.toPhrase s' := h.branches.choice

end Level

/-- The text up to the parenthesis that opens the innermost group, and the group itself. -/
inductive Opened : List OpenGroup → List Char → Scope → Prop
  | none : Opened [] [] .start
  | group {g : OpenGroup} {gs : List OpenGroup} {s s' : Scope} {u v : List Char} (count : Nat)
      (around : Opened gs u s) (outer : g.outer.Reads s v s') (plain : g.capture = .none) :
      Opened (g :: gs) (u ++ v ++ markers count ++ ['(', '?', ':']) s'
  | capture {g : OpenGroup} {gs : List OpenGroup} {s s' : Scope} {u v w : List Char}
      {name : Option String} (count : Nat) (around : Opened gs u s)
      (outer : g.outer.Reads s v s') (naming : Naming w name)
      (numbered : g.capture = .some (s'.opened + 1, name)) :
      Opened (g :: gs) (u ++ v ++ markers count ++ '(' :: w) s'.enter

def Waiting.Counts : Waiting → Nat → Prop
  | none, count => count = 0
  | one _, count => count = 1
  | several _, _ => True

namespace Reader

variable {r next : Reader} {t : Token} {i : Nat}

inductive Reads (r : Reader) : List Char → Prop
  | intro {s s' : Scope} {u v : List Char} {count : Nat} (groups : Opened r.groups u s)
      (level : r.level.Reads s v s') (waiting : r.waiting.Counts count)
      (opened : s'.opened = r.captures)
      (closed : s'.closed.map (fun g => (g.index, g.name)) = r.closed) :
      Reads r (u ++ v ++ markers count)

theorem reads_iff (unmarked : r.waiting = .none) : r.Reads text ↔
    ∃ s s' u v, text = u ++ v ∧ Opened r.groups u s ∧ r.level.Reads s v s' ∧
      s'.opened = r.captures ∧ s'.closed.map (fun g => (g.index, g.name)) = r.closed := by
  constructor
  · rintro @⟨s, s', u, v, count, groups, level, waiting, opened, closed⟩
    rw [unmarked] at waiting
    obtain rfl : count = 0 := waiting
    exact ⟨s, s', u, v, List.append_nil _, groups, level, opened, closed⟩
  · rintro ⟨s, s', u, v, rfl, groups, level, opened, closed⟩
    have waits : r.waiting.Counts 0 := unmarked ▸ rfl
    rw [← List.append_nil (u ++ v)]
    exact .intro groups level waits opened closed

theorem reads_start : start.Reads [] :=
  (reads_iff rfl).2 ⟨.start, .start, [], [], rfl, .none,
    .intro (Level.settles_empty .start) (.none .start), rfl, rfl⟩

theorem Reads.begin {last : LastPiece} {count : Nat} (groups : Opened r.groups u s)
    (level : r.level.Reads s v s') (opened : s'.opened = r.captures)
    (closed : s'.closed.map (fun g => (g.index, g.name)) = r.closed)
    (piece : last.Reads s' (markers count ++ w) s') :
    Reads { r with level := r.level.begin last, waiting := .none }
      (u ++ v ++ markers count ++ w) := by
  refine (reads_iff rfl).2 ⟨_, _, u, _, ?_, groups, level.begin piece, opened, closed⟩
  simp only [List.append_assoc]

theorem Reads.literal {c : Char} (h : r.Reads text) (spelled : Literal w c) :
    (r.literal c).Reads (text ++ w) := by
  rcases r.literal_cases c with ⟨unmarked, isMarked, before, last, run⟩ | ⟨-, begins⟩
  · -- A run goes on only where no marker stands between its characters.
    rw [literal_of_run run unmarked]
    obtain ⟨s, s', u, v, rfl, groups, ⟨settled, read⟩, opened, closed⟩ := (reads_iff unmarked).1 h
    rw [run] at read
    cases read with
    | literals count _ literals =>
        have longer := literals.snoc spelled
        rw [← List.reverse_cons] at longer
        have level := Level.Reads.intro (l := { r.level with
          last := .literals isMarked (last :: before) c }) settled
          (.literals count isMarked longer)
        refine (reads_iff ?_).2 ⟨_, _, u, _, ?_, groups, level, opened, closed⟩
        · exact unmarked
        · simp only [List.append_assoc]
  · rw [begins]
    obtain @⟨s, s', u, v, count, groups, level, waiting, opened, closed⟩ := h
    have alone : Literals w ([].reverse ++ [c]) := Literals.nil.snoc spelled
    exact Reads.begin groups level opened closed (.literals count r.marks alone)

theorem Reads.marker (h : r.Reads text) :
    (r.marker i).Reads (text ++ Grammar.marker) := by
  obtain @⟨s, s', u, v, count, groups, level, waiting, opened, closed⟩ := h
  have one_more : markers (count + 1) = markers count ++ Grammar.marker := by
    simp [markers, List.replicate_succ']
  have waits : (r.waiting.add i).Counts (count + 1) := by
    cases known : r.waiting with
    | none =>
        rw [known] at waiting
        exact congrArg (· + 1) waiting
    | one | several => trivial
  rw [List.append_assoc, ← one_more]
  exact .intro groups level waits opened closed

theorem IsAtom.written {body : Phrase} (isAtom : r.IsAtom t body) (spelled : Spells w t)
    (closed : s.closed.map (fun g => (g.index, g.name)) = r.closed) : Written Atom s w body s := by
  cases isAtom with
  | set members =>
      cases spelled with
      | set h => exact .set s h
  | guid =>
      cases spelled with
      | guid =>
          obtain ⟨t, expr, yields⟩ := written_guid s
          exact ⟨t, .guid expr, yields⟩
  | anchor =>
      cases spelled with
      | anchor h => exact .anchor s h
  | @reference key index resolved =>
      cases spelled with
      | numbered d => exact .numbered (closed ▸ resolved)
      | named name => exact .named (closed ▸ resolved)

theorem Reads.atom {body : Phrase} (h : r.Reads text) (isAtom : r.IsAtom t body)
    (spelled : Spells w t) : (r.atom body).Reads (text ++ w) := by
  obtain @⟨s, s', u, v, count, groups, level, waiting, opened, closed⟩ := h
  exact Reads.begin groups level opened closed
    (.atom count r.marks (isAtom.written spelled closed))

theorem Reads.openGroup {kind : GroupKind} (h : r.Reads text) (spelled : Spells w (.opening kind)) :
    (r.openGroup i kind).Reads (text ++ w) := by
  obtain @⟨s, s', u, v, count, groups, level, -, opened, closed⟩ := h
  have inside (s : Scope) : Level.empty.Reads s [] s := .intro (Level.settles_empty s) (.none s)
  cases spelled with
  | group =>
      have around := Opened.group (g := ⟨i, r.marks, none, r.level⟩) count groups level rfl
      exact (reads_iff rfl).2 ⟨_, _, _, [], (List.append_nil _).symm, around, inside s', opened,
        closed⟩
  | @capture _ name naming =>
      have around := Opened.capture
        (g := ⟨i, r.marks, some (r.captures + 1, name), r.level⟩) count groups level
        naming (by rw [opened])
      exact (reads_iff rfl).2 ⟨_, _, _, [], (List.append_nil _).symm, around, inside s'.enter,
        congrArg (· + 1) opened, closed⟩

theorem Reads.closeGroup {g : OpenGroup} {gs : List OpenGroup} (h : r.Reads text)
    (unmarked : r.waiting = .none) (some : r.groups = g :: gs) :
    (r.closeGroup g gs).Reads (text ++ [')']) := by
  obtain ⟨s, s', u, v, rfl, groups, level, opened, closed⟩ := (reads_iff unmarked).1 h
  have body := level.toPhrase
  rw [some] at groups
  cases groups with
  | group before around outer plain =>
      have wrapped : g.wrap r.level.toPhrase = .group r.level.toPhrase := by
        simp only [OpenGroup.wrap, plain]
      have level := outer.begin (.atom before g.marked (wrapped ▸ body.group))
      refine (reads_iff (r := r.closeGroup g gs) unmarked).2
        ⟨_, _, _, _, ?_, around, level, opened, ?_⟩
      · simp
      · simpa [Reader.closeGroup, plain] using closed
  | @capture _ _ _ between _ _ _ name before around outer naming numbered =>
      obtain ⟨t, atom⟩ := body.capture naming
      have wrapped : g.wrap r.level.toPhrase =
          .capture (between.opened + 1) name r.level.toPhrase := by
        simp only [OpenGroup.wrap, numbered]
      have level := outer.begin (.atom before g.marked (wrapped ▸ atom))
      refine (reads_iff (r := r.closeGroup g gs) unmarked).2
        ⟨_, _, _, _, ?_, around, level, opened, ?_⟩
      · simp
      · simp [Reader.closeGroup, numbered, Scope.leave, closed]

theorem Reads.bar (h : r.Reads text) (unmarked : r.waiting = .none) :
    Reads { r with level := r.level.endBranch } (text ++ ['|']) := by
  obtain ⟨s, s', u, v, rfl, groups, level, opened, closed⟩ := (reads_iff unmarked).1 h
  exact (reads_iff (r := { r with level := r.level.endBranch }) unmarked).2
    ⟨_, _, u, _, List.append_assoc _ _ _, groups, level.endBranch, opened, closed⟩

theorem exists_of_literals {cs : List Char} {c : Char} (h : Literals w (cs ++ [c])) :
    ∃ u v, w = u ++ v ∧ Literals u cs ∧ Literal v c := by
  generalize whole : cs ++ [c] = ds at h
  cases h with
  | nil => simp at whole
  | snoc before next =>
      obtain ⟨rfl, same⟩ := List.append_inj' whole rfl
      cases same
      exact ⟨_, _, rfl, before, next⟩

theorem Takes.written {isMarked : Bool} {level : Level} {body : Phrase}
    (takes : r.Takes isMarked level body) (h : r.level.Reads s w s') :
    ∃ v count x between, w = v ++ (markers count ++ x) ∧ level.Settles s v between ∧
      Written Atom between x body s' := by
  obtain ⟨between, v, x, rfl, settled, read⟩ : ∃ between v x, w = v ++ x ∧
      r.level.Settles s v between ∧ r.level.last.Reads between x s' := by
    cases h with
    | intro settled read => exact ⟨_, _, _, rfl, settled, read⟩
  cases takes with
  | atom last =>
      rw [last] at read
      cases read with
      | atom count _ atom => exact ⟨v, count, _, between, rfl, settled, atom⟩
  | single last =>
      rw [last] at read
      cases read with
      | literals count _ run =>
          exact ⟨v, count, _, _, rfl, settled, .literals _ (by simp) run⟩
  | @split isMarked before c d last =>
      -- The run is cut in two: the markers in front of it stay with its first part.
      rw [last] at read
      cases read with
      | literals count _ literals =>
          rw [List.reverse_cons] at literals
          obtain ⟨y, z, rfl, earlier, own⟩ := exists_of_literals literals
          have rest : Level.Reads s (v ++ (markers count ++ y))
              { r.level with last := .literals isMarked before c } s' :=
            .intro settled (.literals count isMarked earlier)
          have alone : Literals z ([] ++ [d]) := Literals.nil.snoc own
          refine ⟨_, 0, z, _, ?_, rest.settles .none, .literals _ (by simp) alone⟩
          simp [markers]

theorem markers_of_counts {waiting : Waiting} {count : Nat} (counts : waiting.Counts count)
    (few : ∀ first, waiting ≠ .several first) :
    markers count = optionally waiting.isMarked Grammar.marker := by
  cases waiting with
  | none =>
      obtain rfl : count = 0 := counts
      rfl
  | one =>
      obtain rfl : count = 1 := counts
      rfl
  | several first => exact absurd rfl (few first)

theorem Reads.quantifier {isMarked : Bool} {level : Level} {body : Phrase} {q : Quantifier}
    (h : r.Reads text) (few : ∀ first, r.waiting ≠ .several first)
    (takes : r.Takes isMarked level body) (spelled : Spells w (.quantifier (.ok q))) :
    Reads { r with
      level := { level with
        last := .quantified (.markedIf isMarked (.rep r.marks q body)) }
      waiting := .none } (text ++ w) := by
  obtain @⟨s, s', u, v, count, groups, read, waiting, opened, closed⟩ := h
  obtain ⟨before, own, x, between, rfl, settled, atom⟩ := takes.written read
  cases spelled with
  | quantifier bounds isLazy =>
      have piece := atom.quantified own isMarked r.waiting.isMarked r.marks isLazy bounds
      refine (reads_iff rfl).2
        ⟨_, _, u, _, ?_, groups, .intro settled (.quantified piece), opened, closed⟩
      rw [markers_of_counts waiting few]
      simp only [List.append_assoc]

theorem Reads.step (h : r.Reads text) (steps : r.Steps i t next) (spelled : Spells w t) :
    next.Reads (text ++ w) := by
  cases steps with
  | literal c =>
      cases spelled with
      | literal spelled => exact h.literal spelled
  | marker =>
      cases spelled with
      | marker => exact h.marker
  | atom isAtom => exact h.atom isAtom spelled
  | opening kind => exact h.openGroup spelled
  | closing unmarked groups =>
      cases spelled with
      | closing => exact h.closeGroup unmarked groups
  | bar unmarked =>
      cases spelled with
      | bar => exact h.bar unmarked
  | quantifier q few takes => exact h.quantifier few takes spelled

theorem Reads.advance? {ws : List (List Char)} {ts : List Token} (h : r.Reads text)
    (spelled : List.Forall₂ Spells ws ts) (taken : r.advance? ts = some next) :
    next.Reads (text ++ ws.flatten) := by
  induction spelled generalizing r text with
  | nil =>
      cases taken
      simpa using h
  | cons first _ ih =>
      obtain ⟨between, step, others⟩ := advance?_cons_eq_some.1 taken
      rw [List.flatten_cons, ← List.append_assoc]
      exact ih (h.step (step_eq_ok.1 step) first) others

end Reader

theorem Reader.Reads.finished {r : Reader} (h : r.Reads text) (unmarked : r.waiting = .none)
    (closed : r.groups = []) : ∃ s, Written Expr .start text r.level.toPhrase s := by
  obtain ⟨s, s', u, v, rfl, groups, level, -, -⟩ := (reads_iff unmarked).1 h
  rw [closed] at groups
  cases groups with
  | none => exact ⟨s', level.toPhrase⟩

/-- A text that is read is an expression with the tree of its phrase. -/
theorem written_of_read {p : Phrase} (read : Phrase.read text = .ok p) :
    ∃ s, Written Expr .start text p s := by
  obtain ⟨r, taken, unmarked, finished, rfl⟩ := Phrase.read_eq_ok.1 read
  obtain ⟨ws, rfl, spelled⟩ := spells_kinds (Reader.sound_of_advance? taken)
  exact (Reader.reads_start.advance? spelled taken).finished unmarked finished

/-- Every pattern that is accepted is an expression of the grammar, and what is returned for it
is the tree of a derivation. -/
theorem Pattern.expr_of_parse {source : String} {p : Pattern} (parsed : parse source = .ok p) :
    ∃ s, Expr .start source.toList p.root.tree s := by
  obtain ⟨phrase, read, rfl⟩ := parse_eq_ok_iff.1 parsed
  obtain ⟨s, t, expr, yields⟩ := written_of_read read
  obtain ⟨rfl, -⟩ := yields false .start Numbering.knows_start
  exact ⟨s, expr⟩

/-- A quantifier takes the last character of a run, and a name stands for a closed group. -/
theorem Pattern.expr_of_parse_reference : ∃ p : Pattern,
    parse "(?<y>.\x7b=2,4\x7d)\\i\\k<y>?|\\x41b*" = .ok p ∧
    p.root.tree = .alt
      [.seq [.capture 1 (some "y") (.rep ⟨2, some 4, true⟩ (.set .dot)),
        .rep ⟨0, some 1, false⟩ (.reference 1 (.rep ⟨2, some 4, true⟩ (.set .dot)))],
       .seq [.text ['A'], .rep ⟨0, none, false⟩ (.text ['b'])]] ∧
    ∃ s, Expr .start "(?<y>.\x7b=2,4\x7d)\\i\\k<y>?|\\x41b*".toList p.root.tree s := by
  have parsed : parse "(?<y>.\x7b=2,4\x7d)\\i\\k<y>?|\\x41b*" = .ok _ := rfl
  exact ⟨_, parsed, rfl, expr_of_parse parsed⟩

end PatternSampler
