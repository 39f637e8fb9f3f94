import PatternSampler.Pattern.Describe
import PatternSampler.Pattern.Error

/-!
# Errors of generation
-/

namespace PatternSampler

inductive GenerationError
  | invalidPattern (error : PatternError)
  /-- Nothing can be generated that breaks a marked construct. -/
  | impossibleInvalidation
  /-- The class of a node has nothing to select from. -/
  | emptyAlphabet (node : Node)
  /-- The string was meant to break the pattern but conforms to it. -/
  | stillConforms (generated : List Char)
  | emptyRange

def GenerationError.message : GenerationError → String
  | invalidPattern e => "invalid pattern: " ++ e.message
  | impossibleInvalidation =>
      "invalidation was requested but no marked construct can produce an invalid value"
  | emptyAlphabet node => "character class " ++ node.describe ++ " has nothing to select from"
  | stillConforms generated =>
      "did not generate an invalid string, " ++ quoted generated ++ " still conforms to the pattern"
  | emptyRange => "there is no number to draw from an empty range"

end PatternSampler
