import PatternSampler.Generation.Basic
import PatternSampler.Matching.Basic

/-!
# Synthesis

From the text of a pattern to a string.  Without markers the string conforms to
the pattern.  With markers one of the marked constructs is broken, and the result
is refused if it conforms all the same.
-/

namespace PatternSampler

def Pattern.choose (p : Pattern) : Generation Node := do
  match ← (Source.sample p.eligible : Generation (Option Node)) with
  | some node => pure node
  | none => throw .impossibleInvalidation

/-- Refuses a string that conforms to the pattern without its markers. -/
def verify (text : String) (generated : List Char) : Except GenerationError Unit :=
  match Pattern.parseUnmarked text with
  | .error e => .error (.invalidPattern e)
  | .ok p => if p.isMatch generated then .error (.stillConforms generated) else .ok ()

def synthesize (text : String) (slack : Nat) : Generation (List Char) := do
  match Pattern.parse text with
  | .error e => throw (.invalidPattern e)
  | .ok p =>
      if p.hasMarker then do
        let node ← p.choose
        let generated ← (Generator.invalidating slack p.root node.id).generate p.root
        match verify text generated with
        | .error e => throw e
        | .ok () => pure generated
      else (Generator.conforming slack).generate p.root

def synthesizeSeeded (text : String) (slack : Nat) (seed : UInt64) :
    Except GenerationError String :=
  ((synthesize text slack).run (Source.ofSeed seed)).1.map String.ofList

end PatternSampler
