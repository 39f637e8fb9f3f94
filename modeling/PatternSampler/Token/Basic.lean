import PatternSampler.Pattern.Quantifier
import PatternSampler.Token.ClassItem

/-!
# Tokens

A pattern text is cut into tokens: literal characters, classes, markers,
quantifiers, references and the punctuation of groups and branches.  Scanners
answer what stands at the start of a text, with its length.  Faults inside a token
become tokens themselves, so cutting never fails; the error they carry counts from
the first character of the token.
-/

namespace PatternSampler

inductive GroupKey
  | number (digit : Char)
  | name (chars : List Char)
deriving DecidableEq, Repr

def GroupKey.text : GroupKey → String
  | number digit => digit.toString
  | name chars => String.ofList chars

inductive GroupKind
  | plain
  | capturing (name : Option String)
deriving DecidableEq, Repr

inductive Token
  | literal (c : Char)
  | marker
  | set (members : CharClass)
  | guid
  | anchor
  | opening (kind : GroupKind)
  | closing
  | bar
  /-- A quantifier, which may be malformed, with its lazy modifier. -/
  | quantifier (bounds : Except PatternError Quantifier)
  | reference (key : GroupKey)
  | invalid (error : PatternError)

def repeatCount (position : Nat) (digits : List Char) : Except PatternError Nat :=
  let count := numberOf 10 (digits.filterMap (digitOf? 10))
  if maxRepeat < count then .error ⟨position, .numberTooLarge⟩ else .ok count

/-- The bounds and the length of a text that begins with a brace. -/
def scanBraces (cs : List Char) : Except PatternError (Quantifier × Nat) := do
  let unmatched : PatternError := ⟨0, .unmatchedBrace⟩
  let same := cs[1]? == some '='
  let start := if same then 2 else 1
  let low := (cs.drop start).takeWhile Char.isDigit
  let comma := start + low.length
  let min ← repeatCount start low
  if low.isEmpty then throw unmatched
  match cs.drop comma with
  | ',' :: rest => do
      let high := rest.takeWhile Char.isDigit
      let max ← repeatCount (comma + 1) high
      match high, rest.dropWhile Char.isDigit with
      | [], '\x7d' :: _ => pure (⟨min, none, same⟩, comma + 2)
      | _, '\x7d' :: _ =>
          if max < min then throw ⟨0, .invalidQuantifierBounds min max⟩
          pure (⟨min, some max, same⟩, comma + 1 + high.length + 1)
      | _, _ => throw unmatched
  | '\x7d' :: _ => pure (⟨min, some min, same⟩, comma + 1)
  | _ => throw unmatched

/-- A question mark after a quantifier only makes it lazy. -/
def withLazy (cs : List Char) (bounds : Quantifier) (length : Nat) : Token × Nat :=
  (.quantifier (.ok bounds), if cs[length]? == some '?' then length + 1 else length)

def isNameChar (c : Char) : Bool := c.isAlphanum || c == '_'

def groupName? (cs : List Char) : Option (List Char) :=
  match cs.takeWhile isNameChar, cs.dropWhile isNameChar with
  | c :: name, '>' :: _ => some (c :: name)
  | _, _ => none

def scanOpening : List Char → Token × Nat
  | _ :: '?' :: ':' :: _ => (.opening .plain, 3)
  | _ :: '?' :: '<' :: rest =>
      match groupName? rest with
      | some name => (.opening (.capturing (some (String.ofList name))), name.length + 4)
      | none => (.invalid ⟨0, .invalidGroupSyntax⟩, 1)
  | _ :: '?' :: _ => (.invalid ⟨0, .invalidGroupSyntax⟩, 1)
  | _ => (.opening (.capturing none), 1)

def scanBracket (cs : List Char) : Token × Nat :=
  match className? cs with
  | some name =>
      if name = "guid".toList then (.guid, name.length + 4)
      else match CharClass.named? (String.ofList name) with
        | some members => (.set members, name.length + 4)
        | none => (.invalid ⟨0, .unknownClassName (String.ofList name)⟩, 1)
  | none =>
      match scanClass cs with
      | .ok (members, length) => (.set members, length)
      | .error e => (.invalid e, 1)

/-- The token and the length of a backslash followed by `rest`. -/
def scanEscape (rest : List Char) : Token × Nat :=
  match rest with
  | 'i' :: _ => (.marker, 2)
  | 'k' :: '<' :: rest =>
      match groupName? rest with
      | some name => (.reference (.name name), name.length + 4)
      | none => (.invalid ⟨0, .invalidGroupSyntax⟩, 1)
  | 'k' :: _ => (.invalid ⟨0, .unknownEscape 'k'⟩, 1)
  | _ =>
      match rest.head?.bind CharClass.shorthand? with
      | some members => (.set members, 2)
      | none =>
          match escapedChar rest with
          | .error flaw => (.invalid ⟨0, flaw⟩, 1)
          | .ok (some (c, length)) => (.literal c, length + 1)
          | .ok none => (.reference (.number (rest.headD '0')), 2)

def scanToken (c : Char) (rest : List Char) : Token × Nat :=
  match c with
  | '.' => (.set .dot, 1)
  | '^' => (.anchor, 1)
  | '$' => (.anchor, 1)
  | '|' => (.bar, 1)
  | '(' => scanOpening (c :: rest)
  | ')' => (.closing, 1)
  | '[' => scanBracket (c :: rest)
  | ']' => (.invalid ⟨0, .unmatchedBracket⟩, 1)
  | '*' => withLazy (c :: rest) ⟨0, none, false⟩ 1
  | '+' => withLazy (c :: rest) ⟨1, none, false⟩ 1
  | '?' => withLazy (c :: rest) ⟨0, some 1, false⟩ 1
  | '\x7b' =>
      match scanBraces (c :: rest) with
      | .ok (bounds, length) => withLazy (c :: rest) bounds length
      | .error e => (.quantifier (.error e), 1)
  | '\\' => scanEscape rest
  | _ => (.literal c, 1)

/-- Cuts a text into tokens with their positions.  The next `skip` characters
belong to the token before them; nothing is read after an invalid token. -/
def tokensFrom (position : Nat) : (skip : Nat) → List Char → List (Nat × Token)
  | _, [] => []
  | skip + 1, _ :: rest => tokensFrom (position + 1) skip rest
  | 0, c :: rest =>
      match scanToken c rest with
      | (.invalid e, _) => [(position, .invalid e)]
      | (token, length) => (position, token) :: tokensFrom (position + 1) (length - 1) rest

def tokens (text : List Char) : List (Nat × Token) := tokensFrom 0 0 text

end PatternSampler
