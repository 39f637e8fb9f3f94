import PatternSampler.Proofs.Phrase.Step
import PatternSampler.Proofs.Phrase.WellFormed

/-!
# What reading yields

Every phrase that is read from a text is well-formed, and its capturing groups are
numbered from one on, in the order in which they are opened.  The invariant of a reader
says so of all the parts that it holds; a step adds to the parts or moves them.
-/

namespace PatternSampler

namespace Level

def settled (l : Level) : List Phrase := l.branches.reverse ++ l.pieces.reverse

def parts (l : Level) : List Phrase := l.settled ++ l.last.toPiece?.toList

def WellFormed (l : Level) : Prop := ∀ p ∈ l.parts, p.WellFormed

def indexes (l : Level) : List Nat := l.parts.flatMap Phrase.indexes

theorem settled_begin (l : Level) (last : LastPiece) : (l.begin last).settled = l.parts := by
  simp only [parts, settled, begin, List.reverse_append]
  cases l.last.toPiece? <;> simp

theorem parts_begin (l : Level) (last : LastPiece) :
    (l.begin last).parts = l.parts ++ last.toPiece?.toList := by
  rw [parts, settled_begin]
  rfl

theorem branches_endBranch (l : Level) :
    l.endBranch.branches.reverse =
      l.branches.reverse ++ [.branch (l.pieces.reverse ++ l.last.toPiece?.toList)] := by
  simp only [endBranch, begin, List.reverse_append, List.reverse_cons]
  cases l.last.toPiece? <;> simp

theorem parts_endBranch (l : Level) : l.endBranch.parts = l.endBranch.branches.reverse := by
  simp [parts, settled, endBranch, LastPiece.toPiece?]

theorem WellFormed.begin {l : Level} (hl : l.WellFormed) {last : LastPiece}
    (hlast : ∀ p ∈ last.toPiece?, p.WellFormed) : (l.begin last).WellFormed := by
  simp only [WellFormed, parts_begin, List.mem_append]
  rintro p (hp | hp)
  · exact hl p hp
  · exact hlast p (by simpa using hp)

theorem WellFormed.endBranch {l : Level} (hl : l.WellFormed) : l.endBranch.WellFormed := by
  simp only [WellFormed, parts_endBranch, branches_endBranch, List.mem_append,
    List.mem_singleton]
  simp only [WellFormed, parts, settled, List.mem_append] at hl
  rintro p (hp | rfl)
  · exact hl p (.inl (.inl hp))
  · apply Phrase.WellFormed.branch
    intro q hq
    rcases List.mem_append.1 hq with hq | hq
    · exact hl q (.inl (.inr hq))
    · exact hl q (.inr hq)

theorem WellFormed.toPhrase {l : Level} (hl : l.WellFormed) : l.toPhrase.WellFormed := by
  refine .choice (by simp [branches_endBranch]) fun p hp => hl.endBranch p ?_
  rwa [parts_endBranch]

theorem indexes_begin (l : Level) (last : LastPiece) :
    (l.begin last).indexes = l.indexes ++ last.toPiece?.toList.flatMap Phrase.indexes := by
  simp [indexes, parts_begin]

theorem indexes_endBranch (l : Level) : l.endBranch.indexes = l.indexes := by
  rw [indexes, parts_endBranch, branches_endBranch, indexes, parts, settled]
  simp [Phrase.indexes, Phrase.indexesIn_eq]

theorem indexes_toPhrase (l : Level) : l.toPhrase.indexes = l.indexes := by
  rw [← indexes_endBranch, indexes, parts_endBranch, toPhrase, Phrase.indexes,
    Phrase.indexesIn_eq]

end Level

def OpenGroup.indexes (g : OpenGroup) : List Nat :=
  g.outer.indexes ++ (g.capture.map (·.1)).toList

namespace Reader

def indexes (r : Reader) : List Nat :=
  r.groups.reverse.flatMap OpenGroup.indexes ++ r.level.indexes

/-- What a reader holds is well-formed, and the groups that it has opened are numbered
from one on in the order of the text. -/
structure Invariant (r : Reader) : Prop where
  level : r.level.WellFormed
  outer : ∀ g ∈ r.groups, g.outer.WellFormed
  numbered : r.indexes = List.range' 1 r.captures

theorem invariant_start : start.Invariant where
  level := by
    have hempty : Level.empty.parts = [] := rfl
    simp [start, Level.WellFormed, hempty]
  outer := by simp [start]
  numbered := rfl

private theorem Invariant.begin {r : Reader} (hr : r.Invariant) {last : LastPiece}
    (hlast : ∀ p ∈ last.toPiece?, p.WellFormed ∧ p.indexes = []) :
    Invariant { r with level := r.level.begin last, waiting := .none } where
  level := hr.level.begin fun p hp => (hlast p hp).1
  outer := hr.outer
  numbered := by
    have none : last.toPiece?.toList.flatMap Phrase.indexes = [] := by
      simpa using fun p hp => (hlast p hp).2
    rw [← hr.numbered]
    simp [indexes, Level.indexes_begin, none]

private theorem literals_toPiece? {marked : Bool} {before : List Char} {last : Char} {p : Phrase}
    (hp : p ∈ (LastPiece.literals marked before last).toPiece?) :
    p.WellFormed ∧ p.indexes = [] := by
  simp only [LastPiece.toPiece?, Option.mem_def, Option.some.injEq] at hp
  subst hp
  exact ⟨Phrase.wellFormed_markedIf.2 (.text _), by simp [Phrase.indexes]⟩

theorem Invariant.literal {r : Reader} (hr : r.Invariant) (c : Char) : (r.literal c).Invariant := by
  rcases r.literal_cases c with ⟨waiting, marked, before, d, last⟩ | ⟨-, begins⟩
  · have hlevel := hr.level
    have hnumbered := hr.numbered
    simp only [Level.WellFormed, Level.parts, last, indexes, Level.indexes] at hlevel hnumbered
    rw [literal_of_run last waiting]
    refine ⟨?_, hr.outer, ?_⟩
    · intro p hp
      rcases List.mem_append.1 hp with hp | hp
      · exact hlevel p (List.mem_append_left _ hp)
      · exact (literals_toPiece? (Option.mem_toList.1 hp)).1
    · rw [← hnumbered]
      simp [indexes, Level.indexes, Level.parts, Level.settled, LastPiece.toPiece?,
        Phrase.indexes]
  · rw [begins]
    exact hr.begin fun p hp => literals_toPiece? hp

theorem Invariant.atom {r : Reader} (hr : r.Invariant) {body : Phrase} (hbody : body.WellFormed)
    (closed : body.indexes = []) : (r.atom body).Invariant := by
  apply hr.begin
  intro p hp
  simp only [LastPiece.toPiece?, Option.mem_def, Option.some.injEq] at hp
  subst hp
  exact ⟨Phrase.wellFormed_markedIf.2 hbody, by simpa⟩

theorem Invariant.openGroup {r : Reader} (hr : r.Invariant) (position : Nat) (kind : GroupKind) :
    (r.openGroup position kind).Invariant := by
  have hempty : Level.empty.parts = [] := rfl
  cases kind with
  | plain =>
      refine ⟨by simp [Reader.openGroup, Level.WellFormed, hempty],
        List.forall_mem_cons.2 ⟨hr.level, hr.outer⟩, ?_⟩
      rw [Reader.openGroup, ← hr.numbered]
      simp [indexes, OpenGroup.indexes, Level.indexes, hempty]
  | capturing name =>
      refine ⟨by simp [Reader.openGroup, Level.WellFormed, hempty],
        List.forall_mem_cons.2 ⟨hr.level, hr.outer⟩, ?_⟩
      rw [Reader.openGroup, List.range'_concat, ← hr.numbered]
      simp [indexes, OpenGroup.indexes, Level.indexes, hempty, Nat.add_comm]

theorem Invariant.closeGroup {r : Reader} (hr : r.Invariant) {g : OpenGroup}
    {groups : List OpenGroup} (hgroups : r.groups = g :: groups) :
    (r.closeGroup g groups).Invariant := by
  have houter := hr.outer
  rw [hgroups, List.forall_mem_cons] at houter
  have hwrap : (g.wrap r.level.toPhrase).WellFormed := by
    unfold OpenGroup.wrap
    split
    · exact .capture hr.level.toPhrase
    · exact .group hr.level.toPhrase
  have hindexes : (g.wrap r.level.toPhrase).indexes =
      (g.capture.map (·.1)).toList ++ r.level.indexes := by
    unfold OpenGroup.wrap
    split <;> rename_i hcapture <;>
      simp [hcapture, Phrase.indexes, Level.indexes_toPhrase]
  refine ⟨houter.1.begin ?_, houter.2, ?_⟩
  · intro p hp
    simp only [LastPiece.toPiece?, Option.mem_def, Option.some.injEq] at hp
    subst hp
    exact Phrase.wellFormed_markedIf.2 hwrap
  · rw [Reader.closeGroup, ← hr.numbered]
    simp [indexes, hgroups, OpenGroup.indexes, Level.indexes_begin, LastPiece.toPiece?, hindexes]

theorem IsAtom.wellFormed {r : Reader} {t : Token} {body : Phrase} (h : r.IsAtom t body)
    (ht : t.WellFormed) : body.WellFormed ∧ body.indexes = [] := by
  cases h with
  | set members => exact ⟨.set ht, rfl⟩
  | guid => exact ⟨Phrase.wellFormed_guid, Phrase.indexes_guid⟩
  | anchor => exact ⟨.text _, rfl⟩
  | reference => exact ⟨.reference _, rfl⟩

theorem Invariant.takes {r : Reader} (hr : r.Invariant) {marked : Bool} {level : Level}
    {body : Phrase} (takes : r.Takes marked level body) :
    (∀ p ∈ level.settled, p.WellFormed) ∧ body.WellFormed ∧
      level.settled.flatMap Phrase.indexes ++ body.indexes = r.level.indexes := by
  have hlevel := hr.level
  simp only [Level.WellFormed, Level.parts, List.forall_mem_append] at hlevel
  obtain ⟨hsettled, hlast⟩ := hlevel
  cases takes with
  | atom last =>
      simp only [last, LastPiece.toPiece?, Option.toList_some, List.forall_mem_singleton,
        Phrase.wellFormed_markedIf] at hlast
      exact ⟨hsettled, hlast, by simp [Level.indexes, Level.parts, last, LastPiece.toPiece?]⟩
  | single last =>
      refine ⟨hsettled, .text _, ?_⟩
      simp [Level.indexes, Level.parts, last, LastPiece.toPiece?, Phrase.indexes]
  | split last =>
      rw [Level.settled_begin]
      refine ⟨?_, .text _, ?_⟩
      · intro p hp
        rcases List.mem_append.1 hp with hp | hp
        · exact hsettled p hp
        · exact (literals_toPiece? (Option.mem_toList.1 hp)).1
      · simp [Level.indexes, Level.parts, Level.settled, last, LastPiece.toPiece?, Phrase.indexes]

theorem Invariant.quantifier {r : Reader} (hr : r.Invariant) {marked : Bool} {level : Level}
    {body : Phrase} {q : Quantifier} (hq : q.WellFormed) (takes : r.Takes marked level body) :
    Invariant { r with
      level := { level with
        last := .quantified (.markedIf marked (.rep r.marks q body)) }
      waiting := .none } := by
  obtain ⟨hsettled, hbody, hindexes⟩ := hr.takes takes
  refine ⟨?_, hr.outer, ?_⟩
  · intro p hp
    rcases List.mem_append.1 hp with hp | hp
    · exact hsettled p hp
    · simp only [LastPiece.toPiece?, Option.toList_some, List.mem_singleton] at hp
      subst hp
      exact Phrase.wellFormed_markedIf.2 (.rep hq hbody)
  · have hlast : Level.indexes { level with
        last := .quantified (.markedIf marked (.rep r.marks q body)) } =
        r.level.indexes := by
      rw [← hindexes]
      simp [Level.indexes, Level.parts, Level.settled, LastPiece.toPiece?, Phrase.indexes]
    rw [← hr.numbered, indexes, hlast]
    rfl

theorem Invariant.step {r r' : Reader} (hr : r.Invariant) {position : Nat} {token : Token}
    (htoken : token.WellFormed) (h : r.step position token = .ok r') : r'.Invariant := by
  cases step_eq_ok.1 h with
  | literal c => exact hr.literal c
  | marker => exact ⟨hr.level, hr.outer, hr.numbered⟩
  | atom isAtom =>
      obtain ⟨hbody, closed⟩ := isAtom.wellFormed htoken
      exact hr.atom hbody closed
  | opening kind => exact hr.openGroup position kind
  | closing _ groups => exact hr.closeGroup groups
  | bar =>
      refine ⟨hr.level.endBranch, hr.outer, ?_⟩
      rw [← hr.numbered, indexes, Level.indexes_endBranch]
      rfl
  | quantifier q _ takes => exact hr.quantifier htoken takes

theorem Invariant.run {tokens : List (Nat × Token)} {r r' : Reader} (hr : r.Invariant)
    (htokens : ∀ t ∈ tokens, t.2.WellFormed) (h : r.run tokens = .ok r') : r'.Invariant := by
  induction tokens generalizing r with
  | nil =>
      cases h
      exact hr
  | cons t rest ih =>
      obtain ⟨ht, hrest⟩ := List.forall_mem_cons.1 htokens
      rw [Reader.run, List.foldlM_cons, bind_eq_ok] at h
      obtain ⟨next, hstep, h⟩ := h
      exact ih (hr.step ht hstep) hrest h

end Reader

namespace Phrase

def read (text : List Char) : Except PatternError Phrase := (Reader.read true text).map Prod.fst

theorem read_eq (text : List Char) :
    read text = Reader.start.run (tokens text) >>= Reader.finish := by
  have start : { Reader.start with honors := true } = Reader.start := rfl
  rw [read, Reader.read, start]
  cases Reader.start.run (tokens text) with
  | error e => rfl
  | ok r =>
      change (r.finish >>= fun p => pure (p, r.hasMarker)).map Prod.fst = r.finish
      cases r.finish <;> rfl

theorem of_read {text : List Char} {p : Phrase} (h : read text = .ok p) :
    p.WellFormed ∧ ∃ count, p.indexes = List.range' 1 count := by
  rw [read_eq] at h
  obtain ⟨r, hrun, hfinish⟩ := bind_eq_ok.1 h
  obtain ⟨-, hgroups, rfl⟩ := Reader.finish_eq_ok.1 hfinish
  have hr := Reader.invariant_start.run (wellFormed_tokens text) hrun
  refine ⟨hr.level.toPhrase, r.captures, ?_⟩
  rw [Level.indexes_toPhrase, ← hr.numbered]
  simp [Reader.indexes, hgroups]

end Phrase

end PatternSampler
