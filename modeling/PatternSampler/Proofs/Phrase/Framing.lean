import PatternSampler.Proofs.Phrase.Language
import PatternSampler.Proofs.Phrase.Likeness

/-!
# Reading inside another text

A text that refers to no group means the same wherever it is read as a whole: behind a bar
or between the parentheses of a group.  Only the numbers of its capturing groups change.
-/

namespace PatternSampler

namespace Phrase

/-- The second phrase has the language of the first one and refers to no group. -/
structure Means (p p' : Phrase) : Prop where
  language : p'.language = p.language
  references : p'.references = []

theorem Means.product {ps ps' : List Phrase} (h : List.Forall₂ Means ps ps') :
    product ps' = product ps ∧ referencesIn ps' = [] := by
  induction h with
  | nil => exact ⟨rfl, rfl⟩
  | cons first _ ih => simp [Phrase.product, referencesIn, first.language, first.references, ih]

theorem Means.sum {ps ps' : List Phrase} (h : List.Forall₂ Means ps ps') :
    sum ps' = sum ps ∧ referencesIn ps' = [] := by
  induction h with
  | nil => exact ⟨rfl, rfl⟩
  | cons first _ ih => simp [Phrase.sum, referencesIn, first.language, first.references, ih]

theorem likeness_means (d : Nat) : Likeness d Means where
  text _ := ⟨rfl, rfl⟩
  set _ := ⟨rfl, rfl⟩
  guid := ⟨rfl, rfl⟩
  group h := ⟨h.language, h.references⟩
  capture _ _ h := ⟨h.language, h.references⟩
  rep _ _ q h := ⟨congrArg q.language h.language, h.references⟩
  markedIf _ _ h := ⟨by simpa using h.language, by simpa using h.references⟩
  branch h := ⟨(Means.product h).1, (Means.product h).2⟩
  choice h := ⟨(Means.sum h).1, (Means.sum h).2⟩

end Phrase

def Plain (text : List Char) : Prop := ∀ key, .reference key ∉ kinds text

variable {text : List Char} {p : Phrase} {r : Reader} {B : List Phrase}

theorem Phrase.advance?_of_read (read : Phrase.read text = .ok p) (plain : Plain text)
    (waiting : r.waiting = .none) (level : r.level = ⟨B, [], .none⟩) :
    ∃ r' own, r.advance? (kinds text) = some r' ∧ r'.waiting = .none ∧ r'.groups = r.groups ∧
      r'.level.endBranch.branches = own ++ B ∧ p.Means (.choice own.reverse) := by
  have hE := Phrase.likeness_means r.captures
  obtain ⟨f, taken, finished, groups, rfl⟩ := Phrase.read_eq_ok.1 read
  have alike : Reader.Like r.captures Means B r.groups r.closed .start r := by
    refine ⟨.base ?_, (Nat.zero_add _).symm, (List.append_nil _).symm, waiting⟩
    rw [level]
    exact ⟨⟨[], rfl, .nil⟩, .nil, .none⟩
  obtain ⟨f', taken', alike⟩ :=
    alike.advance? hE (fun key listed => absurd listed (plain key)) taken
  have stack := alike.stack
  rw [groups] at stack
  -- the groups around the text are open again at its end
  generalize outer : f'.groups = groups' at stack
  cases stack with
  | base hl =>
      obtain ⟨own, branches, each⟩ := (hl.endBranch hE).branches
      exact ⟨f', own, taken', alike.waiting.trans finished, outer, branches,
        hE.choice (List.rel_reverse each)⟩

theorem Phrase.references_of_read (read : Phrase.read text = .ok p) (plain : Plain text) :
    p.references = [] := by
  obtain ⟨f, own, taken, -, -, branches, means⟩ :=
    advance?_of_read (r := .start) read plain rfl rfl
  obtain ⟨f', taken', -, -, rfl⟩ := Phrase.read_eq_ok.1 read
  obtain rfl : f = f' := Option.some.inj (taken.symm.trans taken')
  rw [List.append_nil] at branches
  rw [Level.toPhrase, branches]
  exact means.references

theorem Phrase.advance?_enclosed (read : Phrase.read text = .ok p) (plain : Plain text)
    (waiting : r.waiting = .none) (kind : GroupKind) :
    ∃ r' body, r.advance? (.opening kind :: kinds text ++ [.closing]) = some r' ∧
      r'.waiting = .none ∧ r'.groups = r.groups ∧ r'.level = r.level.begin (.atom false body) ∧
      p.Means body := by
  have opened : (r.openGroup 0 kind).waiting = .none ∧ (r.openGroup 0 kind).level = .empty ∧
      ∃ capture, (r.openGroup 0 kind).groups = ⟨0, false, capture, r.level⟩ :: r.groups := by
    rw [← Reader.marks_of_resolved waiting]
    cases kind with
    | plain => exact ⟨rfl, rfl, none, rfl⟩
    | capturing name => exact ⟨rfl, rfl, some _, rfl⟩
  obtain ⟨none, empty, capture, inner⟩ := opened
  obtain ⟨f, own, taken, finished, groups, branches, means⟩ :=
    advance?_of_read read plain none (B := []) empty
  rw [List.append_nil] at branches
  have phrase : f.level.toPhrase = .choice own.reverse := by rw [Level.toPhrase, branches]
  have closed : f.step 0 .closing =
      .ok (f.closeGroup ⟨0, false, capture, r.level⟩ r.groups) :=
    (Reader.Steps.closing finished (groups.trans inner)).step_eq
  refine ⟨f.closeGroup ⟨0, false, capture, r.level⟩ r.groups,
    OpenGroup.wrap ⟨0, false, capture, r.level⟩ f.level.toPhrase, ?_, finished, rfl, rfl, ?_⟩
  · rw [List.cons_append]
    refine Reader.advance?_cons_eq_some.2 ⟨_, (Reader.Steps.opening kind).step_eq, ?_⟩
    rw [Reader.advance?_append, taken]
    exact Reader.advance?_cons_eq_some.2 ⟨_, closed, rfl⟩
  · rw [phrase]
    cases capture with
    | none => exact ⟨means.language, means.references⟩
    | some capture => exact ⟨means.language, means.references⟩

end PatternSampler
