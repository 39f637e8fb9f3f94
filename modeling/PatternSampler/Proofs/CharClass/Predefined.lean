import Mathlib
import PatternSampler.Proofs.CharClass.WellFormed

/-!
# What the predefined classes accept

A shorthand or a name stands for a property of ASCII characters.  The class behind it accepts
the characters with this property.  The class behind a negated shorthand accepts all others,
also those above its alphabet.
-/

namespace PatternSampler

def isSpace (c : Char) : Bool := ('\t' ≤ c && c ≤ '\r') || c == ' '

def isHexDigit (c : Char) : Bool := c.isDigit || ('A' ≤ c && c ≤ 'F') || ('a' ≤ c && c ≤ 'f')

def isGraphic (c : Char) : Bool := '!' ≤ c && c ≤ '~'

inductive Shorthand
  | digit
  | space
  | word
deriving DecidableEq, Repr

inductive ClassName
  | alpha
  | alnum
  | upper
  | lower
  | digit
  | xdigit
  | space
  | print
  | punct
  | graph
  | cntrl
  | blank
deriving DecidableEq, Repr

/-- Whether the character is in the class that the small letter stands for. -/
def Shorthand.base : Shorthand → Char → Bool
  | digit => Char.isDigit
  | space => isSpace
  | word => fun c => c.isAlphanum || c == '_'

def ClassName.accepts : ClassName → Char → Bool
  | alpha => Char.isAlpha
  | alnum => Char.isAlphanum
  | upper => Char.isUpper
  | lower => Char.isLower
  | digit => Char.isDigit
  | xdigit => isHexDigit
  | space => isSpace
  | print => fun c => c == ' ' || isGraphic c
  | punct => fun c => isGraphic c && !c.isAlphanum
  | graph => isGraphic
  | cntrl => fun c => c < ' ' || c == '\x7f'
  | blank => fun c => c == ' ' || c == '\t'

def Shorthand.letter : Shorthand → (negated : Bool) → Char
  | digit, false => 'd'
  | digit, true => 'D'
  | space, false => 's'
  | space, true => 'S'
  | word, false => 'w'
  | word, true => 'W'

namespace ClassName

def text : ClassName → String
  | alpha => "alpha"
  | alnum => "alnum"
  | upper => "upper"
  | lower => "lower"
  | digit => "digit"
  | xdigit => "xdigit"
  | space => "space"
  | print => "print"
  | punct => "punct"
  | graph => "graph"
  | cntrl => "cntrl"
  | blank => "blank"

def all : List ClassName :=
  [alpha, alnum, upper, lower, digit, xdigit, space, print, punct, graph, cntrl, blank]

end ClassName

namespace Shorthand

def spans : Shorthand → List Span
  | digit => CharClass.digits
  | space => CharClass.spaces
  | word => CharClass.wordSpans

def members (s : Shorthand) (negated : Bool) : CharClass := .ofSpans negated s.spans

theorem ascii_spans (s : Shorthand) : ∀ t ∈ s.spans, t.hi ≤ 0x7F := by
  cases s <;> decide

theorem shorthand?_letter (s : Shorthand) (negated : Bool) :
    CharClass.shorthand? (s.letter negated) = some (s.members negated) := by
  cases s <;> cases negated <;> rfl

theorem letter_inj {s t : Shorthand} {negated negated' : Bool} :
    s.letter negated = t.letter negated' ↔ s = t ∧ negated = negated' := by
  cases s <;> cases t <;> cases negated <;> cases negated' <;> simp [letter]

theorem exists_letter {c : Char} {members : CharClass}
    (known : CharClass.shorthand? c = some members) :
    ∃ (s : Shorthand) (negated : Bool), c = s.letter negated := by
  unfold CharClass.shorthand? at known
  split at known
  · exact ⟨digit, false, rfl⟩
  · exact ⟨digit, true, rfl⟩
  · exact ⟨space, false, rfl⟩
  · exact ⟨space, true, rfl⟩
  · exact ⟨word, false, rfl⟩
  · exact ⟨word, true, rfl⟩
  · cases known

end Shorthand

namespace ClassName

def spans (n : ClassName) : List Span := (CharClass.namedSpans.lookup n.text).getD []

def members (n : ClassName) : CharClass := .ofSpans false n.spans

theorem ascii_spans (n : ClassName) : ∀ s ∈ n.spans, s.hi ≤ 0x7F := by
  cases n <;> decide

theorem text_ne_nil (n : ClassName) : n.text.toList ≠ [] := by
  cases n <;> exact List.cons_ne_nil _ _

theorem isAlpha_of_mem_text (n : ClassName) : ∀ c ∈ n.text.toList, c.isAlpha = true := by
  have all : n.text.toList.all Char.isAlpha = true := by
    cases n <;> rfl
  exact List.all_eq_true.1 all

theorem named?_text (n : ClassName) : CharClass.named? n.text = some n.members := by
  cases n <;> rfl

theorem texts_all : all.map text = CharClass.namedSpans.map Prod.fst := rfl

theorem text_inj {m n : ClassName} : m.text = n.text ↔ m = n := by
  cases m <;> cases n <;> simp [text]

theorem exists_text {name : String} {members : CharClass}
    (known : CharClass.named? name = some members) : ∃ n : ClassName, n.text = name := by
  obtain ⟨spans, found, -⟩ := Option.map_eq_some_iff.1 known
  obtain ⟨front, back, table, -⟩ := List.lookup_eq_some_iff.1 found
  have listed : name ∈ all.map text := by simp [texts_all, table]
  simpa using (List.mem_map.1 listed).imp fun n => And.right

end ClassName

theorem CharClass.contains_ofSpans (negated : Bool) (spans : List Span) (c : Char) :
    (ofSpans negated spans).contains c = (decide (∃ s ∈ spans, c.toNat ∈ s) != negated) := by
  have members : (ofSpans negated spans).members = ∅ ∪ ⟨spans⟩ := rfl
  have beyond : (ofSpans negated spans).beyond = false := rfl
  have polarity : (ofSpans negated spans).negated = negated := rfl
  have listed : (ofSpans negated spans).lists c.toNat = decide (∃ s ∈ spans, c.toNat ∈ s) := by
    rw [Bool.eq_iff_iff, decide_eq_true_iff]
    simp [lists, beyond, members, IntervalSet.mem_def (s := ⟨spans⟩)]
  rw [contains, listed, polarity]

section

open CharClass

variable (c : Char)

theorem Shorthand.mem_spans (s : Shorthand) :
    (∃ t ∈ s.spans, c.toNat ∈ t) ↔ s.base c = true := by
  have same (d : Char) : c = d ↔ c.toNat = d.toNat := Char.toNat_inj.symm
  cases s <;>
    simp [spans, digits, spaces, uppers, lowers, wordSpans, charSpan, Span.mem_def, base, isSpace,
      Char.isAlphanum, Char.isAlpha, Char.isUpper, Char.isLower, Char.isDigit, Char.le_def,
      UInt32.le_iff_toNat_le, same]
  all_goals omega

theorem ClassName.mem_spans (n : ClassName) :
    (∃ s ∈ n.spans, c.toNat ∈ s) ↔ n.accepts c = true := by
  have same (d : Char) : c = d ↔ c.toNat = d.toNat := Char.toNat_inj.symm
  cases n <;>
    simp [spans, text, namedSpans, List.lookup, digits, blanks, spaces, uppers, lowers, charSpan,
      Span.mem_def, accepts, isSpace, isHexDigit, isGraphic, Char.isAlphanum, Char.isAlpha,
      Char.isUpper, Char.isLower, Char.isDigit, Char.le_def, Char.lt_def, UInt32.le_iff_toNat_le,
      UInt32.lt_iff_toNat_lt, same]
  all_goals omega

theorem Shorthand.contains_members (s : Shorthand) (negated : Bool) :
    (s.members negated).contains c = (s.base c != negated) := by
  simp [members, contains_ofSpans, s.mem_spans]

theorem ClassName.contains_members (n : ClassName) : n.members.contains c = n.accepts c := by
  simp [members, contains_ofSpans, n.mem_spans]

end

end PatternSampler
