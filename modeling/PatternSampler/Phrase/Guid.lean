import PatternSampler.CharClass.Named
import PatternSampler.Phrase.Basic

/-!
# The built-in pattern of a GUID

`[:guid:]` stands for a pattern of its own.  It has no capturing group, so the
groups around it keep their numbers.
-/

namespace PatternSampler

def guidPattern : String :=
  "[A-F0-9]\x7b8\x7d(?:-[A-F0-9]\x7b4\x7d)\x7b3\x7d-[A-F0-9]\x7b12\x7d"

namespace Phrase

def guidDigits (count : Nat) : Phrase :=
  rep false ⟨count, some count, false⟩ (set (.ofSpans false CharClass.upperHexDigits))

/-- The phrase that `guidPattern` spells. -/
def guid : Phrase :=
  choice [branch [
    guidDigits 8,
    rep false ⟨3, some 3, false⟩ (group (choice [branch [text ['-'], guidDigits 4]])),
    text ['-'],
    guidDigits 12]]

end Phrase

end PatternSampler
