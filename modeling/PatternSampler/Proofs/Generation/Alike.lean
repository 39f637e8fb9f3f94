import PatternSampler.Generation.Basic

/-!
# Runs that do alike

A node is told by its description.  Two runs do alike if from every source they yield the same
or fail with the same report, and leave the same source behind.
-/

namespace PatternSampler

/-- An error without the identities of nodes. -/
inductive Report
  | invalidPattern (error : PatternError)
  | impossibleInvalidation
  | emptyAlphabet (description : String)
  | stillConforms (generated : List Char)
  | emptyRange

def GenerationError.report : GenerationError → Report
  | invalidPattern e => .invalidPattern e
  | impossibleInvalidation => .impossibleInvalidation
  | emptyAlphabet node => .emptyAlphabet node.describe
  | stillConforms generated => .stillConforms generated
  | emptyRange => .emptyRange

namespace Generation

variable {α β : Type} {run run' : Generation α}

def Alike (run run' : Generation α) : Prop := ∀ source,
  (run'.run.run source).1.mapError GenerationError.report =
      (run.run.run source).1.mapError GenerationError.report ∧
    (run'.run.run source).2 = (run.run.run source).2

namespace Alike

theorem refl (run : Generation α) : Alike run run := fun _ => ⟨rfl, rfl⟩

theorem throw {e e' : GenerationError} (same : e'.report = e.report) :
    Alike (throw e : Generation α) (throw e') :=
  fun _ => ⟨congrArg Except.error same, rfl⟩

theorem bind (first : Alike run run') {next next' : α → Generation β}
    (others : ∀ a, Alike (next a) (next' a)) : Alike (run >>= next) (run' >>= next') := by
  intro source
  obtain ⟨same, rest⟩ := first source
  simp only [ExceptT.run_bind, StateT.run_bind]
  generalize run.run.run source = result at same rest ⊢
  generalize run'.run.run source = result' at same rest ⊢
  obtain ⟨outcome, source⟩ := result
  obtain ⟨outcome', source'⟩ := result'
  obtain rfl : source' = source := rest
  cases outcome with
  | ok a =>
      cases outcome' with
      | ok a' =>
          cases same
          exact others a source'
      | error e' => cases same
  | error e =>
      cases outcome' with
      | ok a' => cases same
      | error e' => exact ⟨congrArg Except.error (Except.error.inj same), rfl⟩

theorem repeatedAfter {unit unit' : Generation (List Char)} (h : Alike unit unit')
    (reversed : List Char) (count : Nat) :
    Alike (repeatedAfter unit reversed count) (repeatedAfter unit' reversed count) := by
  induction count generalizing reversed with
  | zero => exact .refl _
  | succ count ih => exact h.bind fun next => ih (next.reverseAux reversed)

theorem repeated {unit unit' : Generation (List Char)} (h : Alike unit unit') (count : Nat) :
    Alike (repeated unit count) (repeated unit' count) :=
  h.repeatedAfter [] count

end Alike

theorem alike_character {node node' : Node} (same : node'.describe = node.describe)
    (c : CharClass) : Alike (character node c) (character node' c) := by
  have starved {α : Type} : Alike (throw (.emptyAlphabet node) : Generation α)
      (throw (.emptyAlphabet node')) := .throw (congrArg Report.emptyAlphabet same)
  unfold character
  split
  · -- nothing is drawn behind the error
    exact (starved : Alike (throw _ : Generation Char) (throw _))
  · refine Alike.bind (.refl _) fun n => ?_
    cases c.nth? n with
    | some ch => exact .refl _
    | none => exact starved

theorem alike_misspelled {node node' : Node} (same : node'.describe = node.describe)
    (chars : List Char) :
    Alike (Generator.misspelled node chars) (Generator.misspelled node' chars) := by
  unfold Generator.misspelled
  split
  · exact .refl _
  · refine Alike.bind (.refl _) fun position => ?_
    cases chars[position]? with
    | none => exact .refl _
    | some c => exact (alike_character same (.allExcept c)).bind fun _ => .refl _

end Generation

end PatternSampler
