import PatternSampler.Token.Escape

/-!
# Bracket classes

The items between the brackets of a class such as `[^a-z\d[:punct:]]`, read one
after another, and the class that they list together.
-/

namespace PatternSampler

inductive ClassItem
  | span (lo hi : Char)
  | set (members : CharClass)
deriving DecidableEq, Repr

def CharClass.insertItem (c : CharClass) : ClassItem → Except CharClass.InsertError CharClass
  | .span lo hi => c.insertRange lo hi
  | .set members => .ok (c.insertClass members)

def Flaw.ofInsertError : CharClass.InsertError → Flaw
  | .outsideAlphabet _ => .invalidCodePoint
  | .invalidRange => .invalidRange

/-- The name in a text that begins like `[:name:]`, which is four characters longer. -/
def className? : List Char → Option (List Char)
  | '[' :: ':' :: rest =>
      let name := rest.takeWhile Char.isAlpha
      match name, rest.dropWhile Char.isAlpha with
      | _ :: _, ':' :: ']' :: _ => some name
      | _, _ => none
  | _ => none

/-- One end of a range, or a shorthand class. -/
inductive ClassAtom
  | char (c : Char)
  | set (members : CharClass)

def scanClassAtom : List Char → Except PatternError (ClassAtom × Nat)
  | [] => .error ⟨0, .unexpectedEnd⟩
  | '\\' :: rest =>
      match rest.head?.bind CharClass.shorthand? with
      | some members => .ok (.set members, 2)
      | none =>
          match escapedChar rest with
          | .error flaw => .error ⟨0, flaw⟩
          | .ok (some (c, length)) => .ok (.char c, length + 1)
          | .ok none => .error ⟨0, .unknownEscape (rest.headD '\\')⟩
  | c :: _ => .ok (.char c, 1)

/-- The item at the start of a text and its length.  A hyphen makes a range unless
it is the last character of the class. -/
def scanClassItem (cs : List Char) : Except PatternError (ClassItem × Nat) :=
  match className? cs with
  | some name =>
      match CharClass.named? (String.ofList name) with
      | some members => .ok (.set members, name.length + 4)
      | none => .error ⟨0, .unknownClassName (String.ofList name)⟩
  | none =>
      match scanClassAtom cs with
      | .error e => .error e
      | .ok (.set members, length) => .ok (.set members, length)
      | .ok (.char lo, length) =>
          match cs.drop length with
          | '-' :: c :: rest =>
              if c = ']' then .ok (.span lo lo, length)
              else match scanClassAtom (c :: rest) with
                | .error e => .error (e.shift (length + 1))
                | .ok (.set _, _) => .error ⟨0, .invalidRange⟩
                | .ok (.char hi, more) => .ok (.span lo hi, length + 1 + more)
          | _ => .ok (.span lo lo, length)

structure ClassBody where
  items : List (Nat × ClassItem)
  /-- The position after the closing bracket, or what stopped the reading. -/
  ending : Except PatternError Nat

/-- Reads items up to the closing bracket, which does not close when it comes
`first`.  The next `skip` characters belong to the item before them. -/
def scanClassBody (position : Nat) (first : Bool) : (skip : Nat) → List Char → ClassBody
  | _, [] => ⟨[], .error ⟨0, .unmatchedBracket⟩⟩
  | skip + 1, _ :: rest => scanClassBody (position + 1) first skip rest
  | 0, c :: rest =>
      if c = ']' ∧ first = false then ⟨[], .ok (position + 1)⟩
      else match scanClassItem (c :: rest) with
        | .error e => ⟨[], .error (e.shift position)⟩
        | .ok (item, length) =>
            let body := scanClassBody (position + 1) false (length - 1) rest
            { body with items := (position, item) :: body.items }

def CharClass.insertItems : CharClass → List (Nat × ClassItem) → Except PatternError CharClass
  | c, [] => .ok c
  | c, (position, item) :: rest =>
      match c.insertItem item with
      | .ok c => c.insertItems rest
      | .error e => .error ⟨position, .ofInsertError e⟩

def scanClass (cs : List Char) : Except PatternError (CharClass × Nat) := do
  let negated := cs[1]? == some '^'
  let start := if negated then 2 else 1
  let body := scanClassBody start true 0 (cs.drop start)
  let members ← (CharClass.ofPolarity negated).insertItems body.items
  let length ← body.ending
  pure (members, length)

end PatternSampler
