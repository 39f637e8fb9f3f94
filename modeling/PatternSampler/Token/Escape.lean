import PatternSampler.CharClass.Named
import PatternSampler.Pattern.Error

/-!
# Escapes of single characters

What a backslash and the characters after it spell.  Positions and lengths are
those of the characters after the backslash.
-/

namespace PatternSampler

def controlEscape? : Char → Option Char
  | 'n' => some '\n'
  | 't' => some '\t'
  | 'r' => some '\r'
  | 'f' => some '\x0c'
  | 'v' => some '\x0b'
  | 'e' => some '\x1b'
  | 'a' => some '\x07'
  | _ => none

def codePointEscape (base count : Nat) (cs : List Char) : Except Flaw Char :=
  match (cs.take count).mapM (digitOf? base) with
  | none => .error .invalidCodePoint
  | some digits =>
      if digits.length < count then .error .invalidCodePoint
      else match charOf? (numberOf base digits) with
        | none => .error .invalidCodePoint
        | some c => .ok c

def isReservedEscape (c : Char) : Bool :=
  c == 'i' || c == 'k' || (CharClass.shorthand? c).isSome

/-- The character spelled after a backslash and the length of its spelling.  A
marker, a reference or a shorthand class spells none. -/
def escapedChar : List Char → Except Flaw (Option (Char × Nat))
  | [] => .error .unexpectedEnd
  | c :: rest =>
      match controlEscape? c with
      | some control => .ok (some (control, 1))
      | none =>
          if c = 'x' then (codePointEscape 16 2 rest).map fun ch => some (ch, 3)
          else if c = 'u' then (codePointEscape 16 4 rest).map fun ch => some (ch, 5)
          else if c = '0' then
            let digits := (rest.take 3).takeWhile fun d => (digitOf? 8 d).isSome
            (codePointEscape 8 digits.length rest).map fun ch => some (ch, digits.length + 1)
          else if c.isDigit then
            let digits := (c :: rest).takeWhile Char.isDigit
            if digits.length < 2 then .ok none
            else (codePointEscape 10 digits.length (c :: rest)).map fun ch =>
              some (ch, digits.length)
          else if isReservedEscape c then .ok none
          else if c.isAlphanum then .error (.unknownEscape c)
          else .ok (some (c, 1))

end PatternSampler
