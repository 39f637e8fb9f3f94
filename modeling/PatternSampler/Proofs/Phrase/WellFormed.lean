import PatternSampler.Phrase.Guid
import PatternSampler.Proofs.Token.WellFormed

/-!
# Well-formed phrases

The classes and quantifiers of a phrase, and the numbers of its capturing groups in the
order in which the groups are opened.
-/

namespace PatternSampler

namespace Phrase

@[elab_as_elim, induction_eliminator]
theorem induct {motive : Phrase → Prop}
    (text : ∀ chars, motive (.text chars))
    (set : ∀ members, motive (.set members))
    (group : ∀ body, motive body → motive (.group body))
    (capture : ∀ index name body, motive body → motive (.capture index name body))
    (reference : ∀ index, motive (.reference index))
    (rep : ∀ marked quantifier body, motive body → motive (.rep marked quantifier body))
    (marked : ∀ piece, motive piece → motive (.marked piece))
    (branch : ∀ pieces, (∀ p ∈ pieces, motive p) → motive (.branch pieces))
    (choice : ∀ branches, (∀ p ∈ branches, motive p) → motive (.choice branches))
    (p : Phrase) : motive p :=
  Phrase.rec (motive_1 := motive) (motive_2 := fun ps => ∀ p ∈ ps, motive p)
    text set group capture reference rep marked branch choice (by simp)
    (fun _ _ first others => List.forall_mem_cons.2 ⟨first, others⟩) p

inductive WellFormed : Phrase → Prop
  | text (chars : List Char) : WellFormed (.text chars)
  | set {members : CharClass} (h : members.WellFormed) : WellFormed (.set members)
  | group {body : Phrase} (h : WellFormed body) : WellFormed (.group body)
  | capture {index : Nat} {name : Option String} {body : Phrase} (h : WellFormed body) :
      WellFormed (.capture index name body)
  | reference (index : Nat) : WellFormed (.reference index)
  | rep {marked : Bool} {quantifier : Quantifier} {body : Phrase} (hq : quantifier.WellFormed)
      (h : WellFormed body) : WellFormed (.rep marked quantifier body)
  | marked {piece : Phrase} (h : WellFormed piece) : WellFormed (.marked piece)
  | branch {pieces : List Phrase} (h : ∀ p ∈ pieces, WellFormed p) : WellFormed (.branch pieces)
  | choice {branches : List Phrase} (some : branches ≠ []) (h : ∀ p ∈ branches, WellFormed p) :
      WellFormed (.choice branches)

@[simp] theorem wellFormed_markedIf {isMarked : Bool} {piece : Phrase} :
    (markedIf isMarked piece).WellFormed ↔ piece.WellFormed := by
  cases isMarked with
  | false => rfl
  | true =>
      constructor
      · intro h
        cases h
        assumption
      · exact .marked

mutual

def indexes : Phrase → List Nat
  | text _ | set _ | reference _ => []
  | group body => indexes body
  | capture index _ body => index :: indexes body
  | rep _ _ body => indexes body
  | marked piece => indexes piece
  | branch pieces => indexesIn pieces
  | choice branches => indexesIn branches

def indexesIn : List Phrase → List Nat
  | [] => []
  | p :: rest => indexes p ++ indexesIn rest

end

theorem indexesIn_eq (ps : List Phrase) : indexesIn ps = ps.flatMap indexes := by
  induction ps with
  | nil => rfl
  | cons p rest ih => simp [indexesIn, ih]

@[simp] theorem indexes_markedIf (isMarked : Bool) (piece : Phrase) :
    (markedIf isMarked piece).indexes = piece.indexes := by
  cases isMarked <;> rfl

theorem wellFormed_guid : guid.WellFormed := by
  have bounds (count : Nat) (h : count ≤ maxRepeat) :
      Quantifier.WellFormed ⟨count, some count, false⟩ :=
    ⟨h, by simp, by simpa⟩
  have digits (count : Nat) (h : count ≤ maxRepeat) : (guidDigits count).WellFormed :=
    .rep (bounds count h) (.set (.ofSpans _ (by decide)))
  have dash : WellFormed (text ['-']) := .text _
  have block : WellFormed (group (choice [branch [text ['-'], guidDigits 4]])) := by
    refine .group (.choice (by simp) (List.forall_mem_singleton.2 (.branch ?_)))
    simpa using ⟨dash, digits 4 (by decide)⟩
  refine .choice (by simp) (List.forall_mem_singleton.2 (.branch ?_))
  simpa using ⟨digits 8 (by decide), .rep (bounds 3 (by decide)) block, dash,
    digits 12 (by decide)⟩

theorem indexes_guid : guid.indexes = [] := rfl

end Phrase

end PatternSampler
