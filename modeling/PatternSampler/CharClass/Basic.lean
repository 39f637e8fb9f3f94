import PatternSampler.Alphabet
import PatternSampler.IntervalSet.Basic
import PatternSampler.Text.CodePoint

/-!
# Character classes

A class lists code points and accepts either those or all others, depending on
its polarity.  Characters are drawn from the part of the class that lies in its
alphabet, while membership reaches past it.  How many can be drawn is kept with
the class and counted anew after every change.
-/

namespace PatternSampler

structure CharClass where
  alphabet : Alphabet
  /-- Whether the class accepts what it does not list. -/
  negated : Bool
  /-- The listed code points of the alphabet. -/
  members : IntervalSet
  /-- Whether all code points above the alphabet count as listed. -/
  beyond : Bool
  /-- How many code points a draw may produce. -/
  selectable : Nat
deriving DecidableEq, Repr

namespace CharClass

inductive InsertError
  | outsideAlphabet (cp : Nat)
  | invalidRange
deriving DecidableEq, Repr

def InsertError.message : InsertError → String
  | outsideAlphabet cp => s!"code point {codePointText cp} is outside of the supported alphabet"
  | invalidRange => "range is out of order"

def recount (c : CharClass) : CharClass :=
  { c with selectable := if c.negated then c.alphabet.size - c.members.size else c.members.size }

section

variable (c : CharClass)

@[simp] theorem alphabet_recount : c.recount.alphabet = c.alphabet := rfl

@[simp] theorem negated_recount : c.recount.negated = c.negated := rfl

@[simp] theorem members_recount : c.recount.members = c.members := rfl

@[simp] theorem beyond_recount : c.recount.beyond = c.beyond := rfl

end

def ofPolarity (negated : Bool) : CharClass := recount ⟨.ascii, negated, ∅, false, 0⟩

instance : Inhabited CharClass := ⟨ofPolarity false⟩

def ofSpans (negated : Bool) (spans : List Span) : CharClass :=
  recount { ofPolarity negated with members := spans.foldl IntervalSet.insert ∅ }

/-- Surrogates are not characters and never listed in the larger alphabet. -/
def cutSurrogates (a : Alphabet) (s : IntervalSet) : IntervalSet :=
  match a with
  | .ascii => s
  | .bmp => s.remove ⟨Alphabet.firstSurrogate, Alphabet.lastSurrogate, by decide⟩

def listAbove (c : CharClass) (bound : Nat) : CharClass :=
  if h : bound < c.alphabet.max then
    let above : Span := ⟨bound + 1, c.alphabet.max, h⟩
    { c with members := cutSurrogates c.alphabet (c.members.insert above) }
  else c

/-- Moves to the given alphabet if it is larger.  What counted as listed above
the old alphabet is now listed one by one. -/
def grow (c : CharClass) (a : Alphabet) : CharClass :=
  match c.alphabet, a with
  | .ascii, .bmp =>
      let grown := { c with alphabet := .bmp }
      (if c.beyond then grown.listAbove Alphabet.ascii.max else grown).recount
  | _, _ => c

/-- Inserts a range into the class at hand, or is refused.  Either way it tells what
the class is afterwards. -/
def insertion (lo hi : Char) : EStateM InsertError CharClass Unit := do
  let some s := Span.ofBounds? lo.toNat hi.toNat | throw .invalidRange
  let some a := Alphabet.ofCodePoint? hi.toNat | throw (.outsideAlphabet hi.toNat)
  modify (·.grow a)
  modify fun c => { c with members := cutSurrogates c.alphabet (c.members.insert s) }
  modify recount

theorem insertion_run (c : CharClass) (lo hi : Char) :
    (insertion lo hi).run c =
      match Span.ofBounds? lo.toNat hi.toNat, Alphabet.ofCodePoint? hi.toNat with
      | none, _ => .error .invalidRange c
      | some _, none => .error (.outsideAlphabet hi.toNat) c
      | some s, some a => .ok () <| recount { c.grow a with
          members := cutSurrogates (c.grow a).alphabet ((c.grow a).members.insert s) } := by
  unfold insertion
  cases Span.ofBounds? lo.toNat hi.toNat with
  | none => rfl
  | some s => cases Alphabet.ofCodePoint? hi.toNat <;> rfl

def insertRange (c : CharClass) (lo hi : Char) : Except InsertError CharClass :=
  match (insertion lo hi).run c with
  | .ok _ c => .ok c
  | .error e _ => .error e

theorem insertRange_eq (c : CharClass) (lo hi : Char) :
    c.insertRange lo hi =
      match Span.ofBounds? lo.toNat hi.toNat, Alphabet.ofCodePoint? hi.toNat with
      | none, _ => .error .invalidRange
      | some _, none => .error (.outsideAlphabet hi.toNat)
      | some s, some a => .ok <| recount { c.grow a with
          members := cutSurrogates (c.grow a).alphabet ((c.grow a).members.insert s) } := by
  rw [insertRange, insertion_run]
  cases Span.ofBounds? lo.toNat hi.toNat with
  | none => rfl
  | some s => cases Alphabet.ofCodePoint? hi.toNat <;> rfl

def insert (c : CharClass) (ch : Char) : Except InsertError CharClass := c.insertRange ch ch

def selection (c : CharClass) : IntervalSet :=
  if c.negated then cutSurrogates c.alphabet (c.members.complementWithin c.alphabet.max)
  else c.members

def acceptsBeyond (c : CharClass) : Bool := c.beyond != c.negated

def insertClass (c other : CharClass) : CharClass :=
  let c := c.grow other.alphabet
  let c := { c with members := c.members ∪ other.selection }
  recount <|
    if other.acceptsBeyond then { c.listAbove other.alphabet.max with beyond := true } else c

/-- Every character of the alphabet of `ch` but `ch`.  A character above both
alphabets leaves the whole plane. -/
def allExcept (ch : Char) : CharClass :=
  match (insertion ch ch).run (ofPolarity true) with
  | .ok _ c => c
  | .error _ c => c.grow .bmp

theorem allExcept_eq_insert (ch : Char) :
    allExcept ch = match (ofPolarity true).insert ch with
      | .ok c => c
      | .error _ => (ofPolarity true).grow .bmp := by
  rw [allExcept, insert, insertRange, insertion_run]
  cases Span.ofBounds? ch.toNat ch.toNat with
  | none => rfl
  | some s => cases Alphabet.ofCodePoint? ch.toNat <;> rfl

def lists (c : CharClass) (cp : Nat) : Bool :=
  c.members.contains cp || (c.beyond && c.alphabet.max < cp)

def contains (c : CharClass) (ch : Char) : Bool := c.lists ch.toNat != c.negated

/-- The whole alphabet may be drawn, so the complement is empty. -/
def isFull (c : CharClass) : Bool := c.selectable == c.alphabet.size

def nth? (c : CharClass) (n : Nat) : Option Char := (c.selection.nth? n).bind charOf?

def complement (c : CharClass) : CharClass := recount { c with negated := !c.negated }

end CharClass

end PatternSampler
