import PatternSampler.CharClass.Basic
import PatternSampler.Pattern.Quantifier

/-!
# Phrases

A phrase is a pattern as it is written: branches of pieces, with every marker in
its place.  Branches and pieces that stand alone are still lists of one.
-/

namespace PatternSampler

inductive Phrase
  | text (chars : List Char)
  | set (members : CharClass)
  | group (body : Phrase)
  | capture (index : Nat) (name : Option String) (body : Phrase)
  | reference (index : Nat)
  /-- A quantified atom; the quantifier may have a marker of its own. -/
  | rep (marked : Bool) (quantifier : Quantifier) (body : Phrase)
  /-- A piece with markers in front. -/
  | marked (piece : Phrase)
  | branch (pieces : List Phrase)
  | choice (branches : List Phrase)

instance : Inhabited Phrase := ⟨.text []⟩

namespace Phrase

def markedIf (isMarked : Bool) (piece : Phrase) : Phrase := if isMarked then marked piece else piece

end Phrase

end PatternSampler
