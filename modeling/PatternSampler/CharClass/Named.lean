import PatternSampler.CharClass.Basic

/-!
# Predefined classes

The classes behind `\d`, `\s`, `\w` and their negations, behind the dot and
behind names such as `[:alpha:]`.  All of them list ASCII characters only.
-/

namespace PatternSampler.CharClass

def charSpan (lo hi : Char) (ordered : lo.toNat ≤ hi.toNat := by decide) : Span :=
  ⟨lo.toNat, hi.toNat, ordered⟩

def digits : List Span := [charSpan '0' '9']

def blanks : List Span := [charSpan '\t' '\t', charSpan ' ' ' ']

def spaces : List Span := [charSpan '\t' '\r', charSpan ' ' ' ']

def uppers : List Span := [charSpan 'A' 'Z']

def upperHexDigits : List Span := [charSpan 'A' 'F', charSpan '0' '9']

def lowers : List Span := [charSpan 'a' 'z']

def wordSpans : List Span := digits ++ uppers ++ [charSpan '_' '_'] ++ lowers

/-- The class of a shorthand escape; a capital letter negates it. -/
def shorthand? : Char → Option CharClass
  | 'd' => some (ofSpans false digits)
  | 'D' => some (ofSpans true digits)
  | 's' => some (ofSpans false spaces)
  | 'S' => some (ofSpans true spaces)
  | 'w' => some (ofSpans false wordSpans)
  | 'W' => some (ofSpans true wordSpans)
  | _ => none

def namedSpans : List (String × List Span) :=
  [("alpha", uppers ++ lowers),
   ("alnum", digits ++ uppers ++ lowers),
   ("upper", uppers),
   ("lower", lowers),
   ("digit", digits),
   ("xdigit", digits ++ [charSpan 'A' 'F', charSpan 'a' 'f']),
   ("space", spaces),
   ("print", [charSpan ' ' '~']),
   ("punct", [charSpan '!' '/', charSpan ':' '@', charSpan '[' '`', charSpan '\x7b' '~']),
   ("graph", [charSpan '!' '~']),
   ("cntrl", [charSpan '\x00' '\x1f', charSpan '\x7f' '\x7f']),
   ("blank", blanks)]

def named? (name : String) : Option CharClass := (namedSpans.lookup name).map (ofSpans false)

def dot : CharClass := ofSpans true [charSpan '\n' '\n']

end PatternSampler.CharClass
