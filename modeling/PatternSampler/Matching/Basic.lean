import PatternSampler.Matching.State
import PatternSampler.Pattern.Basic

/-!
# Matching

Every node leads from a state to a list of states without repetition, so that all
options of alternatives and repetitions are followed at once.
-/

namespace PatternSampler

namespace Node

mutual

/-- The states in which a match of the node can end when it begins in `s`. -/
def states (text : Array Char) : Node → MatchState → List MatchState
  | .text _ chars, s =>
      if spells text s.position chars then [s.advance chars.length] else []
  | set _ members, s =>
      if text[s.position]?.any members.contains then [s.advance 1] else []
  | rep _ quantifier body, s =>
      if quantifier.same then distinct (equalStates text (states text body) quantifier s)
      else
        let rounds := quantifier.min + MatchState.total text.size s.captures.length + 1
        repeatStates (states text body) quantifier rounds 0 ∅ [s]
  | seq _ children, s => statesAfter text children [s]
  | alt _ children, s => distinct (statesAmong text children s)
  | group _ body, s => states text body s
  | capture _ index _ body, s =>
      distinct ((states text body s).map (·.record index s.position))
  | backref _ _ index _, s =>
      match s.captured? index with
      | none => [s]
      | some (start, stop) =>
          let unit := stretch text start stop
          if spells text s.position unit then [s.advance unit.length] else []

def statesAfter (text : Array Char) : List Node → List MatchState → List MatchState
  | [], ss => ss
  | n :: rest, ss => statesAfter text rest (distinct (ss.flatMap (states text n)))

def statesAmong (text : Array Char) : List Node → MatchState → List MatchState
  | [], _ => []
  | n :: rest, s => states text n s ++ statesAmong text rest s

end

end Node

def Pattern.isMatch (p : Pattern) (text : List Char) : Bool :=
  let text := text.toArray
  (p.root.states text (.start p.captureCount)).any (·.position == text.size)

end PatternSampler
