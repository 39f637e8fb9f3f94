/-!
# Code points

The numbers of characters: `charOf?` leads back from a number to its character
and has no answer for surrogates and for numbers above U+10FFFF.
-/

namespace PatternSampler

def charOf? (cp : Nat) : Option Char :=
  if cp.isValidChar then some (Char.ofNat cp) else none

/-- The value of a digit in a base of at most 16, in either case. -/
def digitOf? (base : Nat) (c : Char) : Option Nat :=
  let value :=
    if '0' ≤ c ∧ c ≤ '9' then some (c.toNat - '0'.toNat)
    else if 'a' ≤ c ∧ c ≤ 'f' then some (c.toNat - 'a'.toNat + 10)
    else if 'A' ≤ c ∧ c ≤ 'F' then some (c.toNat - 'A'.toNat + 10)
    else none
  value.filter (· < base)

def numberOf (base : Nat) (digits : List Nat) : Nat :=
  digits.foldl (fun value d => value * base + d) 0

/-- A code point as it is quoted in messages: at least four capital hexadecimal digits. -/
def codePointText (cp : Nat) : String :=
  "U+" ++ String.ofList (((Nat.toDigits 16 cp).map Char.toUpper).leftpad 4 '0')

end PatternSampler
