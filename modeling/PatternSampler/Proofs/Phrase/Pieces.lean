import Mathlib.Data.List.Lex
import PatternSampler.Proofs.Phrase.Advance

/-!
# Pieces

A piece is read from a place between two pieces to the next such place.  Where a reader stands
is told by the branches and the pieces that have begun, at each depth of grouping.  In
lexicographic order no token leads back, and every piece leads on.  A piece is therefore
read in one way only.
-/

namespace PatternSampler

def Token.endsBranch : Token → Bool
  | bar | closing => true
  | _ => false

def quantifierNext : List Token → Bool
  | .quantifier _ :: _ => true
  | .marker :: .quantifier _ :: _ => true
  | _ => false

def quantifierAfter : Waiting → List Token → Bool
  | .none, ts => quantifierNext ts
  | .one _, .quantifier _ :: _ => true
  | _, _ => false

theorem Waiting.add_ne_none (w : Waiting) (i : Nat) : w.add i ≠ .none := by
  cases w <;> exact Waiting.noConfusion

theorem quantifierAfter_add (w : Waiting) (i : Nat) {ts : List Token}
    (h : quantifierAfter (w.add i) ts = true) : quantifierAfter w (.marker :: ts) = true := by
  cases w with
  | none =>
      match ts, h with
      | .quantifier _ :: _, _ => rfl
  | one | several => cases h

theorem quantifierAfter_add_eq_false {w : Waiting} (i : Nat) {ts : List Token}
    (h : quantifierAfter w (.marker :: ts) = false) : quantifierAfter (w.add i) ts = false :=
  Bool.eq_false_iff.2 (mt (quantifierAfter_add w i) (Bool.eq_false_iff.1 h))

theorem quantifierNext_cases {ts : List Token} (h : quantifierNext ts = true) :
    ∃ bounds after,
      ts = .quantifier bounds :: after ∨ ts = .marker :: .quantifier bounds :: after := by
  unfold quantifierNext at h
  split at h
  · exact ⟨_, _, .inl rfl⟩
  · exact ⟨_, _, .inr rfl⟩
  · cases h

namespace Reader

variable {r q q' s f : Reader} {i : Nat} {t : Token} {ts after after' : List Token}

/-- The last piece is complete where `ts` follow, and no marker waits for the next one. -/
structure Between (r : Reader) (ts : List Token) : Prop where
  waiting : r.waiting = .none
  unquantified : quantifierNext ts = false
  /-- A run of literals only ends at a literal that gets a quantifier of its own. -/
  whole : ∀ m before last c cs, r.level.last = .literals m before last → ts = .literal c :: cs →
    quantifierNext cs = true

theorem between_of_ne_literals (waiting : r.waiting = .none)
    (unquantified : quantifierNext ts = false)
    (other : ∀ m before last, r.level.last ≠ .literals m before last) : r.Between ts :=
  ⟨waiting, unquantified, fun m before last _ _ literals => absurd literals (other m before last)⟩

/-- One piece is read from the start of `ts`, and `after` is left of them. -/
structure ReadsPiece (r : Reader) (ts : List Token) (q : Reader) (after : List Token) : Prop where
  taken : ∃ piece, ts = piece ++ after ∧ r.advance? piece = some q
  groups : q.groups = r.groups
  level : ∃ last, last ≠ .none ∧ q.level = r.level.begin last
  between : q.Between after

/-- The last piece is one atom or one literal, which takes a quantifier as a whole. -/
def TakesWhole (r : Reader) : Prop :=
  ∀ m c before last, r.level.last ≠ .literals m (c :: before) last

theorem Takes.level_eq {marked : Bool} {level : Level} {body : Phrase}
    (takes : r.Takes marked level body) (whole : r.TakesWhole) : level = r.level := by
  cases takes with
  | atom | single => rfl
  | split last => exact absurd last (whole _ _ _ _)

theorem not_quantifierNext (last : r.level.last = .none ∨ ∃ p, r.level.last = .quantified p)
    (taken : r.advance? ts = some f) : quantifierNext ts = false := by
  have refused {u s : Reader} (same : u.level = r.level) (bounds : Except PatternError Quantifier) :
      u.step 0 (.quantifier bounds) ≠ .ok s := by
    intro step
    rw [← same] at last
    cases step_eq_ok.1 step with
    | atom isAtom => cases isAtom
    | quantifier q few takes =>
        rcases last with none | ⟨p, quantified⟩
        · cases takes with
          | atom last | single last | split last => simp [none] at last
        · cases takes with
          | atom last | single last | split last => simp [quantified] at last
  cases next : quantifierNext ts with
  | false => rfl
  | true =>
      exfalso
      obtain ⟨bounds, after, rfl | rfl⟩ := quantifierNext_cases next
      · obtain ⟨s, step, -⟩ := advance?_cons_eq_some.1 taken
        exact refused rfl bounds step
      · obtain ⟨s, step, taken⟩ := advance?_cons_eq_some.1 taken
        cases step
        obtain ⟨s, step, -⟩ := advance?_cons_eq_some.1 taken
        exact refused (u := r.marker 0) rfl bounds step

end Reader

namespace Level

/-- How many branches and how many pieces of the last one have begun. -/
def begun (l : Level) : List Nat := [l.branches.length, (l.begin .none).pieces.length]

variable {l : Level} {last : LastPiece}

theorem begun_begin (some : last ≠ .none) :
    (l.begin last).begun = [l.branches.length, (l.begin .none).pieces.length + 1] := by
  have one : last.toPiece?.toList.length = 1 := by
    cases last with
    | none => exact absurd rfl some
    | literals | atom | quantified => rfl
  simp only [begun, begin, List.length_append, one, Nat.add_comm]

theorem begun_lt_begin (some : last ≠ .none) (inside : List Nat) :
    l.begun ++ inside < (l.begin last).begun := by
  rw [begun_begin some]
  simp [begun, List.cons_lt_cons_iff]

theorem begun_lt_endBranch : l.begun < l.endBranch.begun := by
  simp [begun, endBranch, begin, List.cons_lt_cons_iff]

end Level

namespace Reader

variable {r q q' s f : Reader} {i : Nat} {t : Token} {ts after after' : List Token}

def place (r : Reader) : List Nat :=
  r.groups.reverse.flatMap (·.outer.begun) ++ r.level.begun

theorem place_lt_of_level (groups : s.groups = r.groups) (level : r.level.begun < s.level.begun) :
    r.place < s.place := by
  rw [place, place, groups]
  exact List.append_left_lt level

theorem place_lt_of_begin {last : LastPiece} (some : last ≠ .none) (groups : s.groups = r.groups)
    (level : s.level = r.level.begin last) : r.place < s.place :=
  place_lt_of_level groups (by simpa [level] using Level.begun_lt_begin (l := r.level) some [])

theorem place_lt_openGroup (r : Reader) (i : Nat) (kind : GroupKind) :
    r.place < (r.openGroup i kind).place := by
  have deeper : r.place ++ [] < r.place ++ Level.empty.begun :=
    List.append_left_lt (List.nil_lt_cons 0 [0])
  rw [List.append_nil] at deeper
  cases kind <;> simpa [place, openGroup] using deeper

theorem place_lt_closeGroup {g : OpenGroup} {gs : List OpenGroup} (groups : r.groups = g :: gs) :
    r.place < (r.closeGroup g gs).place := by
  have some : LastPiece.atom g.marked (g.wrap r.level.toPhrase) ≠ .none := LastPiece.noConfusion
  have level := Level.begun_lt_begin (l := g.outer) some r.level.begun
  simpa [place, closeGroup, groups] using List.append_left_lt level

def GoesOn (r : Reader) : Token → Prop
  | .literal _ => r.waiting = .none ∧ ∃ m before last, r.level.last = .literals m before last
  | .quantifier _ => r.TakesWhole
  | .marker => True
  | _ => False

theorem place_step (taken : r.step i t = .ok s) :
    r.place < s.place ∨ s.place = r.place ∧ r.GoesOn t := by
  cases step_eq_ok.1 taken with
  | marker => exact .inr ⟨rfl, trivial⟩
  | literal c =>
      rcases r.literal_cases c with ⟨waiting, m, before, last, literals⟩ | ⟨-, begun⟩
      · refine .inr ⟨?_, waiting, m, before, last, literals⟩
        rw [literal_of_run literals waiting c]
        simp [place, Level.begun, Level.begin, literals, LastPiece.toPiece?]
      · exact .inl (place_lt_of_begin LastPiece.noConfusion rfl (by rw [begun]))
  | atom => exact .inl (place_lt_of_begin LastPiece.noConfusion rfl rfl)
  | opening kind => exact .inl (r.place_lt_openGroup i kind)
  | closing _ groups => exact .inl (place_lt_closeGroup groups)
  | bar => exact .inl (place_lt_of_level rfl Level.begun_lt_endBranch)
  | quantifier q few takes =>
      cases takes with
      | atom last | single last =>
          refine .inr ⟨?_, fun _ _ _ _ literals => by simp [last] at literals⟩
          simp [place, Level.begun, Level.begin, last, LastPiece.toPiece?]
      | split last =>
          refine .inl (place_lt_of_level rfl ?_)
          simp [Level.begun, Level.begin, last, LastPiece.toPiece?, List.cons_lt_cons_iff]

theorem place_advance? (taken : r.advance? ts = some f) : r.place ≤ f.place := by
  induction ts generalizing r with
  | nil =>
      cases taken
      exact le_rfl
  | cons t ts ih =>
      obtain ⟨s, step, taken⟩ := advance?_cons_eq_some.1 taken
      rcases place_step step with on | ⟨same, -⟩
      · exact on.le.trans (ih taken)
      · exact same ▸ ih taken

theorem place_lt_of_waiting (unquantified : quantifierAfter r.waiting (ts ++ after) = false)
    (taken : r.advance? ts = some f) (waits : r.waiting ≠ .none) (waiting : f.waiting = .none) :
    r.place < f.place := by
  induction ts generalizing r with
  | nil =>
      cases taken
      exact absurd waiting waits
  | cons t ts ih =>
      obtain ⟨s, step, taken⟩ := advance?_cons_eq_some.1 taken
      rcases place_step step with on | ⟨same, goesOn⟩
      · exact on.trans_le (place_advance? taken)
      · cases t with
        | marker =>
            cases step
            obtain ⟨first, several⟩ : ∃ first, r.waiting.add 0 = .several first := by
              cases waiting : r.waiting with
              | none => exact absurd waiting waits
              | one first | several first => exact ⟨first, rfl⟩
            rw [← same]
            refine ih ?_ taken (r.waiting.add_ne_none 0)
            rw [marker, several]
            rfl
        | literal c => exact absurd goesOn.1 waits
        | quantifier bounds =>
            cases waiting : r.waiting with
            | none => exact absurd waiting waits
            | one first =>
                rw [waiting] at unquantified
                cases unquantified
            | several first =>
                cases step_eq_ok.1 step with
                | atom isAtom => cases isAtom
                | quantifier q few => exact absurd waiting (few first)
        | _ => exact goesOn.elim

theorem place_lt_of_split (long : ¬r.TakesWhole) (next : quantifierNext (ts ++ after) = true)
    (taken : r.advance? ts = some f) (between : f.Between after) : r.place < f.place := by
  have splits {s : Reader} {bounds : Except PatternError Quantifier} {ts : List Token}
      (long : ¬s.TakesWhole) (taken : s.advance? (.quantifier bounds :: ts) = some f) :
      s.place < f.place := by
    obtain ⟨s', step, taken⟩ := advance?_cons_eq_some.1 taken
    rcases place_step step with on | ⟨-, whole⟩
    · exact on.trans_le (place_advance? taken)
    · exact absurd whole long
  obtain ⟨bounds, rest, split⟩ := quantifierNext_cases next
  cases ts with
  | nil =>
      cases taken
      rw [List.nil_append, between.unquantified] at next
      cases next
  | cons t ts =>
      rcases split with split | split
      · obtain ⟨rfl, -⟩ := List.cons.inj split
        exact splits long taken
      · obtain ⟨same, further⟩ := List.cons.inj split
        subst same
        obtain ⟨s, step, taken⟩ := advance?_cons_eq_some.1 taken
        cases step
        cases ts with
        | nil =>
            cases taken
            exact absurd between.waiting (r.waiting.add_ne_none 0)
        | cons t ts =>
            obtain ⟨rfl, -⟩ := List.cons.inj further
            exact splits (s := r.marker 0) long taken

theorem place_lt_of_between (between : q.Between (ts ++ after)) (taken : q.advance? ts = some f)
    (between' : f.Between after) (some : ts ≠ []) : q.place < f.place := by
  cases ts with
  | nil => exact absurd rfl some
  | cons t ts =>
      obtain ⟨s, step, taken⟩ := advance?_cons_eq_some.1 taken
      rcases place_step step with on | ⟨same, goesOn⟩
      · exact on.trans_le (place_advance? taken)
      · rw [← same]
        cases t with
        | marker =>
            cases step
            have unquantified : quantifierAfter (q.waiting.add 0) (ts ++ after) = false := by
              rw [between.waiting]
              exact quantifierAfter_add_eq_false 0 between.unquantified
            exact place_lt_of_waiting unquantified taken (q.waiting.add_ne_none 0) between'.waiting
        | literal c =>
            cases step
            obtain ⟨waiting, m, before, last, literals⟩ := goesOn
            have next := between.whole m before last c _ literals rfl
            have long : ¬(q.literal c).TakesWhole := fun whole =>
              whole m last before c (by rw [literal_of_run literals waiting c])
            exact place_lt_of_split long next taken between'
        | quantifier bounds => exact absurd between.unquantified (by simp [quantifierNext])
        | _ => exact goesOn.elim

theorem ReadsPiece.place_eq (h : r.ReadsPiece ts q after) (h' : r.ReadsPiece ts q' after') :
    q.place = q'.place := by
  obtain ⟨last, some, level⟩ := h.level
  obtain ⟨last', some', level'⟩ := h'.level
  rw [place, place, h.groups, h'.groups, level, level', Level.begun_begin some,
    Level.begun_begin some']

/-- There is one way to read a piece. -/
theorem ReadsPiece.unique (h : r.ReadsPiece ts q after) (h' : r.ReadsPiece ts q' after') :
    q = q' ∧ after = after' := by
  have whole {q q' : Reader} {after' piece more : List Token}
      (h : r.ReadsPiece ts q (more ++ after')) (h' : r.ReadsPiece ts q' after')
      (taken : r.advance? piece = some q) (taken' : r.advance? (piece ++ more) = some q') :
      more = [] ∧ q = q' := by
    rw [advance?_append, taken] at taken'
    by_cases stays : more = []
    · subst stays
      exact ⟨rfl, Option.some.inj taken'⟩
    · have on := place_lt_of_between h.between taken' h'.between stays
      exact absurd (h.place_eq h') on.ne
  obtain ⟨piece, split, taken⟩ := h.taken
  obtain ⟨piece', split', taken'⟩ := h'.taken
  rcases List.append_eq_append_iff.1 (split.symm.trans split') with
    ⟨more, rfl, rfl⟩ | ⟨more, rfl, rfl⟩
  · obtain ⟨rfl, rfl⟩ := whole h h' taken taken'
    exact ⟨rfl, rfl⟩
  · obtain ⟨rfl, rfl⟩ := whole h' h taken' taken
    exact ⟨rfl, rfl⟩

end Reader

end PatternSampler
