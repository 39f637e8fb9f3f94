import PatternSampler.Phrase.Numbering
import PatternSampler.Phrase.Reader

/-!
# Patterns

A pattern is the numbered tree of a text.  `parse` honors the markers of the text
and `parseUnmarked` does not.
-/

namespace PatternSampler

structure Pattern where
  root : Node
  hasMarker : Bool
  captureCount : Nat

namespace Pattern

def ofRead (read : Phrase × Bool) : Pattern :=
  let (root, s) := read.1.number false .start
  ⟨root, read.2, s.groups.length⟩

def parse (text : String) : Except PatternError Pattern :=
  (Reader.read true text.toList).map ofRead

def parseUnmarked (text : String) : Except PatternError Pattern :=
  (Reader.read false text.toList).map ofRead

def size (p : Pattern) : Nat := p.root.nodes.length

def eligible (p : Pattern) : List Node := p.root.eligible

end Pattern

end PatternSampler
