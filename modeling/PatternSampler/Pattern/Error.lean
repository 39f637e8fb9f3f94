/-!
# Errors of a pattern text

Every error names its cause and the position of the character it is blamed on,
counted from the start of the text.
-/

namespace PatternSampler

def maxRepeat : Nat := 1000

inductive Flaw
  | unmatchedParen
  | unmatchedBracket
  | unmatchedBrace
  | invalidQuantifierBounds (min max : Nat)
  | numberTooLarge
  | unknownEscape (c : Char)
  | danglingQuantifier
  | danglingMarker
  | unknownClassName (name : String)
  | unknownGroup (name : String)
  | invalidGroupSyntax
  | invalidCodePoint
  | invalidRange
  | unexpectedEnd
deriving DecidableEq, Repr

def Flaw.message : Flaw → String
  | unmatchedParen => "unmatched parenthesis"
  | unmatchedBracket => "unmatched bracket"
  | unmatchedBrace => "unmatched brace"
  | invalidQuantifierBounds min max =>
      "invalid quantifier bounds \x7b" ++ toString min ++ "," ++ toString max ++ "\x7d"
  | numberTooLarge => "repetition count is larger than " ++ toString maxRepeat
  | unknownEscape c => "unknown escape '\\" ++ c.toString ++ "'"
  | danglingQuantifier => "quantifier without a preceding atom"
  | danglingMarker => "invalidation marker without a following atom"
  | unknownClassName name => "unknown character class '" ++ name ++ "'"
  | unknownGroup name => "reference to unknown group '" ++ name ++ "'"
  | invalidGroupSyntax => "invalid group syntax"
  | invalidCodePoint => "invalid code point"
  | invalidRange => "range is out of order"
  | unexpectedEnd => "unexpected end of pattern"

structure PatternError where
  index : Nat
  flaw : Flaw
deriving DecidableEq, Repr

namespace PatternError

def message (e : PatternError) : String := e.flaw.message ++ " at index " ++ toString e.index

/-- The same error in a text that has `n` more characters in front. -/
def shift (n : Nat) (e : PatternError) : PatternError := { e with index := n + e.index }

end PatternError

end PatternSampler
