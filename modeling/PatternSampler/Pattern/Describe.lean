import PatternSampler.Pattern.Node
import PatternSampler.Text.Quoted

/-!
# Descriptions of nodes

A subtree on one line, for messages.
-/

namespace PatternSampler

def CharClass.describe (c : CharClass) : String :=
  "[" ++ (if c.negated then "^" else "") ++ toString c.selectable ++ "]"

/-- The bounds of a quantifier; an equals sign asks for equal repetitions. -/
def Quantifier.describe (q : Quantifier) : String :=
  "\x7b" ++ (if q.same then "=" else "") ++ toString q.min ++ "," ++
    (q.max.map toString).getD "" ++ "\x7d"

namespace Node

mutual

def describe : Node → String
  | text _ chars => quoted chars
  | set _ members => members.describe
  | rep _ quantifier body => "rep" ++ quantifier.describe ++ "(" ++ describe body ++ ")"
  | seq _ children => "seq(" ++ String.intercalate ", " (describeEach children) ++ ")"
  | alt _ children => "alt(" ++ String.intercalate ", " (describeEach children) ++ ")"
  | group _ body => "grp(" ++ describe body ++ ")"
  | capture _ index name body =>
      let name := (name.map fun n => "<" ++ n ++ ">").getD ""
      "cap" ++ toString index ++ name ++ "(" ++ describe body ++ ")"
  | backref _ _ index _ => "ref" ++ toString index

def describeEach : List Node → List String
  | [] => []
  | n :: rest => describe n :: describeEach rest

end

end Node

end PatternSampler
