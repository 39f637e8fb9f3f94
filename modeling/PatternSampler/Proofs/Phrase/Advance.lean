import PatternSampler.Proofs.Phrase.Reading
import PatternSampler.Proofs.Token.Locality

/-!
# Reading without positions

Positions matter for the errors of a text only.  A reader that forgets them accepts the
same tokens and comes to the same phrase, so what is accepted can be compared between texts
in which the tokens stand elsewhere.
-/

namespace PatternSampler

def Waiting.forget : Waiting → Waiting
  | none => none
  | one _ => one 0
  | several _ => several 0

def OpenGroup.forget (g : OpenGroup) : OpenGroup := { g with position := 0 }

namespace Reader

def forget (r : Reader) : Reader :=
  { r with groups := r.groups.map OpenGroup.forget, waiting := r.waiting.forget }

/-- Takes tokens as if all of them stood at the start of the text. -/
def advance? (r : Reader) (ts : List Token) : Option Reader :=
  ts.foldlM (fun r t => (r.step 0 t).toOption) r

@[simp] theorem advance?_nil (r : Reader) : r.advance? [] = some r := rfl

theorem advance?_cons (r : Reader) (t : Token) (ts : List Token) :
    r.advance? (t :: ts) = (r.step 0 t).toOption.bind (·.advance? ts) := rfl

theorem advance?_append (r : Reader) (ts us : List Token) :
    r.advance? (ts ++ us) = (r.advance? ts).bind (·.advance? us) :=
  List.foldlM_append

theorem toOption_eq_some {ε α : Type} {x : Except ε α} {a : α} :
    x.toOption = some a ↔ x = .ok a := by
  cases x <;> simp [Except.toOption]

theorem advance?_cons_eq_some {r f : Reader} {t : Token} {ts : List Token} :
    r.advance? (t :: ts) = some f ↔ ∃ next, r.step 0 t = .ok next ∧ next.advance? ts = some f := by
  simp only [advance?_cons, Option.bind_eq_some_iff, toOption_eq_some]

theorem honors_advance? {r f : Reader} {ts : List Token} (taken : r.advance? ts = some f) :
    f.honors = r.honors := by
  induction ts generalizing r with
  | nil =>
      cases taken
      rfl
  | cons t ts ih =>
      obtain ⟨next, step, others⟩ := advance?_cons_eq_some.1 taken
      rw [ih others, honors_step step]

theorem forget_quantify (r : Reader) (i : Nat) (bounds : Except PatternError Quantifier) :
    (r.quantify i bounds).toOption.map forget = (r.forget.quantify 0 bounds).toOption := by
  obtain ⟨⟨branches, pieces, last⟩, groups, captures, closed, waiting, honors, hasMarker⟩ := r
  cases waiting <;> cases bounds <;> cases last <;> try rfl
  all_goals
    rename_i before _
    cases before <;> rfl

theorem forget_atom (r : Reader) (body : Phrase) : (r.atom body).forget = r.forget.atom body := by
  obtain ⟨level, groups, captures, closed, waiting, honors, hasMarker⟩ := r
  cases waiting <;> rfl

theorem forget_step (r : Reader) (i : Nat) (t : Token) :
    (r.step i t).toOption.map forget = (r.forget.step 0 t).toOption := by
  cases t with
  | literal c =>
      obtain ⟨⟨branches, pieces, last⟩, groups, captures, closed, waiting, honors, hasMarker⟩ := r
      cases waiting <;> cases last <;> rfl
  | marker =>
      obtain ⟨level, groups, captures, closed, waiting, honors, hasMarker⟩ := r
      cases waiting <;> rfl
  | set members => exact congrArg some (r.forget_atom (.set members))
  | guid => exact congrArg some (r.forget_atom .guid)
  | anchor => exact congrArg some (r.forget_atom (.text []))
  | opening kind =>
      obtain ⟨level, groups, captures, closed, waiting, honors, hasMarker⟩ := r
      cases kind <;> cases waiting <;> rfl
  | closing =>
      obtain ⟨level, groups, captures, closed, waiting, honors, hasMarker⟩ := r
      cases waiting <;> cases groups <;> rfl
  | bar =>
      obtain ⟨level, groups, captures, closed, waiting, honors, hasMarker⟩ := r
      cases waiting <;> rfl
  | quantifier bounds => exact r.forget_quantify i bounds
  | reference key =>
      simp only [step]
      have same : r.forget.resolve? key = r.resolve? key := by cases key <;> rfl
      rw [same]
      cases r.resolve? key with
      | none => rfl
      | some index => exact congrArg some (r.forget_atom (.reference index))
  | invalid e => rfl

theorem forget_run (r : Reader) (ts : List (Nat × Token)) :
    (r.run ts).toOption.map forget = r.forget.advance? (ts.map Prod.snd) := by
  induction ts generalizing r with
  | nil => rfl
  | cons t ts ih =>
      have step := r.forget_step t.1 t.2
      rw [List.map_cons, advance?_cons, ← step, run, List.foldlM_cons]
      cases r.step t.1 t.2 with
      | error e => rfl
      | ok next => exact ih next

theorem finish_forget (r : Reader) : r.forget.finish.toOption = r.finish.toOption := by
  obtain ⟨level, groups, captures, closed, waiting, honors, hasMarker⟩ := r
  cases waiting <;> cases groups <;> rfl

end Reader

theorem Phrase.read_toOption (text : List Char) :
    (read text).toOption =
      (Reader.start.advance? (kinds text)).bind (·.finish.toOption) := by
  have run := Reader.start.forget_run (tokens text)
  change _ = Reader.start.advance? (kinds text) at run
  rw [← run]
  rw [read_eq]
  cases Reader.start.run (tokens text) with
  | error e => rfl
  | ok r => exact r.finish_forget.symm

theorem Phrase.read_eq_ok {text : List Char} {p : Phrase} :
    read text = .ok p ↔ ∃ r, Reader.start.advance? (kinds text) = some r ∧
      r.waiting = .none ∧ r.groups = [] ∧ r.level.toPhrase = p := by
  rw [← Reader.toOption_eq_some, read_toOption, Option.bind_eq_some_iff]
  simp only [Reader.toOption_eq_some, Reader.finish_eq_ok]

theorem Reader.sound_of_step {r r' : Reader} {i : Nat} {t : Token}
    (h : r.step i t = .ok r') : t.Sound := by
  cases step_eq_ok.1 h with
  | atom isAtom => cases isAtom <;> trivial
  | _ => trivial

theorem Reader.sound_of_advance? {r f : Reader} {ts : List Token} (h : r.advance? ts = some f) :
    ∀ t ∈ ts, t.Sound := by
  induction ts generalizing r with
  | nil => simp
  | cons t ts ih =>
      obtain ⟨next, step, others⟩ := advance?_cons_eq_some.1 h
      exact List.forall_mem_cons.2 ⟨sound_of_step step, ih others⟩

end PatternSampler
