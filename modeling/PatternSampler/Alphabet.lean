/-!
# Alphabets

Characters are drawn from one of two alphabets.  A class that mentions ASCII
characters only draws from ASCII, any other one from the basic multilingual
plane.
-/

namespace PatternSampler

inductive Alphabet
  | ascii
  | bmp
deriving DecidableEq, Repr

namespace Alphabet

def firstSurrogate : Nat := 0xD800

def lastSurrogate : Nat := 0xDFFF

/-- Surrogates are numbers of the basic plane that stand for no character. -/
def IsSurrogate (cp : Nat) : Prop := firstSurrogate ≤ cp ∧ cp ≤ lastSurrogate

instance (cp : Nat) : Decidable (IsSurrogate cp) :=
  inferInstanceAs (Decidable (firstSurrogate ≤ cp ∧ cp ≤ lastSurrogate))

def max : Alphabet → Nat
  | ascii => 0x7F
  | bmp => 0xFFFF

/-- The number of code points in the alphabet; surrogates do not count. -/
def size : Alphabet → Nat
  | ascii => ascii.max + 1
  | bmp => bmp.max + 1 - (lastSurrogate - firstSurrogate + 1)

def Holds (a : Alphabet) (cp : Nat) : Prop := cp ≤ a.max ∧ ¬IsSurrogate cp

instance (a : Alphabet) (cp : Nat) : Decidable (a.Holds cp) :=
  inferInstanceAs (Decidable (cp ≤ a.max ∧ ¬IsSurrogate cp))

/-- The smallest alphabet that holds the code point, if there is one. -/
def ofCodePoint? (cp : Nat) : Option Alphabet :=
  if ascii.Holds cp then some ascii
  else if bmp.Holds cp then some bmp
  else none

end Alphabet

end PatternSampler
