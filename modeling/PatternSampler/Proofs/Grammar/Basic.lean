import PatternSampler.Pattern.Node
import PatternSampler.Phrase.Guid
import PatternSampler.Token.Basic

/-!
# The grammar of patterns

What the text of a pattern may be, rule by rule, and the tree that every rule builds:

    expr        ::= branch ('|' branch)*
    branch      ::= piece*
    piece       ::= MARKER* atom (MARKER? quantifier '?'?)?
    quantifier  ::= '?' | '*' | '+' | '{' '='? INT (',' INT?)? '}'
    atom        ::= '.' | '^' | '$' | '(' ('?:' | '?<' NAME '>')? expr ')' | '[:' NAME ':]'
                  | '[' '^'? class_item+ ']' | '\' ESCAPE | LITERAL+
    class_item  ::= '[:' NAME ':]' | class_atom '-' class_atom | class_atom

A text can be read in more than one way: a run of literals is one atom or several.  The rules
know nothing of cursors and tokens.  They thread the capturing groups from left to right,
because a reference may only name a group that is closed in front of it.
-/

namespace PatternSampler.Grammar

/-- A syntax tree without the identities and the marks of its nodes. -/
inductive Tree
  | text (chars : List Char)
  | set (members : CharClass)
  | rep (quantifier : Quantifier) (body : Tree)
  | seq (pieces : List Tree)
  | alt (branches : List Tree)
  | group (body : Tree)
  | capture (index : Nat) (name : Option String) (body : Tree)
  | reference (index : Nat) (body : Tree)

namespace Tree

def ofPieces : List Tree → Tree
  | [] => text []
  | [t] => t
  | ts => seq ts

def ofBranches : List Tree → Tree
  | [t] => t
  | ts => alt ts

end Tree

inductive Numeral (base : Nat) : List Char → Nat → Prop
  | nil : Numeral base [] 0
  | snoc {w : List Char} {n d : Nat} {c : Char} (before : Numeral base w n)
      (digit : digitOf? base c = some d) : Numeral base (w ++ [c]) (n * base + d)

/-- What stands behind the backslash of a literal escape.  The numeral is the code point of the
character. -/
inductive Escape : List Char → Char → Prop
  | control {d c : Char} (known : controlEscape? d = some c) : Escape [d] c
  | hex {ds : List Char} {c : Char} (two : ds.length = 2) (code : Numeral 16 ds c.toNat) :
      Escape ('x' :: ds) c
  | unicode {ds : List Char} {c : Char} (four : ds.length = 4) (code : Numeral 16 ds c.toNat) :
      Escape ('u' :: ds) c
  | octal {ds : List Char} {c : Char} (few : ds.length ≤ 3) (code : Numeral 8 ds c.toNat) :
      Escape ('0' :: ds) c
  | decimal {d c : Char} {ds : List Char} (several : ds ≠ []) (nonzero : d ≠ '0')
      (code : Numeral 10 (d :: ds) c.toNat) : Escape (d :: ds) c
  | itself {c : Char} (other : c.isAlphanum = false) : Escape [c] c

def metaChars : List Char :=
  ['.', '[', ']', '(', ')', '*', '+', '?', '\x7b', '|', '^', '$', '\\']

inductive Literal : List Char → Char → Prop
  | plain {c : Char} (h : c ∉ metaChars) : Literal [c] c
  | escaped {w : List Char} {c : Char} (h : Escape w c) : Literal ('\\' :: w) c

inductive Literals : List Char → List Char → Prop
  | nil : Literals [] []
  | snoc {v w cs : List Char} {c : Char} (before : Literals v cs) (next : Literal w c) :
      Literals (v ++ w) (cs ++ [c])

def optionally (present : Bool) (w : List Char) : List Char := if present then w else []

def marker : List Char := ['\\', 'i']

def markers (count : Nat) : List Char := (List.replicate count marker).flatten

structure Count (w : List Char) (n : Nat) : Prop where
  some : w ≠ []
  numeral : Numeral 10 w n
  le : n ≤ 1000

inductive Bounds : List Char → Quantifier → Prop
  | question : Bounds ['?'] ⟨0, some 1, false⟩
  | star : Bounds ['*'] ⟨0, none, false⟩
  | plus : Bounds ['+'] ⟨1, none, false⟩
  | exactly (same : Bool) {w : List Char} {n : Nat} (count : Count w n) :
      Bounds ('\x7b' :: (optionally same ['='] ++ w) ++ ['\x7d']) ⟨n, some n, same⟩
  | atLeast (same : Bool) {w : List Char} {min : Nat} (low : Count w min) :
      Bounds ('\x7b' :: (optionally same ['='] ++ w) ++ [',', '\x7d']) ⟨min, none, same⟩
  | between (same : Bool) {v w : List Char} {min max : Nat} (low : Count v min)
      (high : Count w max) (ordered : min ≤ max) :
      Bounds ('\x7b' :: (optionally same ['='] ++ v) ++ ',' :: w ++ ['\x7d']) ⟨min, some max, same⟩

/-- A closing bracket stands for itself only if it is the `first` thing in its class. -/
inductive ClassChar (first : Bool) : List Char → Char → Prop
  | plain {c : Char} (unescaped : c ≠ '\\') (bracket : c = ']' → first = true) :
      ClassChar first [c] c
  | escaped {w : List Char} {c : Char} (h : Escape w c) : ClassChar first ('\\' :: w) c

inductive Item (first : Bool) : List Char → ClassItem → Prop
  | named {name : List Char} {members : CharClass}
      (known : CharClass.named? (String.ofList name) = some members) :
      Item first ('[' :: ':' :: name ++ [':', ']']) (.set members)
  | shorthand {c : Char} {members : CharClass} (known : CharClass.shorthand? c = some members) :
      Item first ['\\', c] (.set members)
  | single {w : List Char} {c : Char} (h : ClassChar first w c) (basic : c ≤ '\uffff') :
      Item first w (.span c c)
  | range {v w : List Char} {lo hi : Char} (low : ClassChar first v lo)
      (high : ClassChar false w hi) (ordered : lo ≤ hi) (basic : hi ≤ '\uffff') :
      Item first (v ++ '-' :: w) (.span lo hi)

inductive Items : Bool → List Char → List ClassItem → Prop
  | last {first : Bool} {w : List Char} {item : ClassItem} (h : Item first w item) :
      Items first w [item]
  | cons {first : Bool} {v w : List Char} {item : ClassItem} {items : List ClassItem}
      (h : Item first v item) (rest : Items false w items) : Items first (v ++ w) (item :: items)

def listed (negated : Bool) (items : List ClassItem) : Except CharClass.InsertError CharClass :=
  items.foldlM CharClass.insertItem (.ofPolarity negated)

inductive ClassText : List Char → CharClass → Prop
  | dot : ClassText ['.'] .dot
  | named {name : List Char} {members : CharClass}
      (known : CharClass.named? (String.ofList name) = some members) :
      ClassText ('[' :: ':' :: name ++ [':', ']']) members
  | bracket (negated : Bool) {w : List Char} {items : List ClassItem} {members : CharClass}
      (h : Items true w items) (built : listed negated items = .ok members) :
      ClassText ('[' :: (optionally negated ['^'] ++ w) ++ [']']) members
  | shorthand {c : Char} {members : CharClass} (known : CharClass.shorthand? c = some members) :
      ClassText ['\\', c] members

/-- The name of `[:guid:]` is no name of a class. -/
example : CharClass.named? "guid" = none := by decide

structure Group where
  index : Nat
  name : Option String
  body : Tree

/-- The capturing groups in front of a place in the text. -/
structure Scope where
  opened : Nat
  /-- Those whose closing parenthesis stands there too, in the order in which they close. -/
  closed : List Group

namespace Scope

def start : Scope := ⟨0, []⟩

def enter (s : Scope) : Scope := { s with opened := s.opened + 1 }

def leave (s : Scope) (g : Group) : Scope := { s with closed := s.closed ++ [g] }

def group? (s : Scope) (index : Nat) : Option Group := s.closed.find? (·.index == index)

def index? (s : Scope) (name : String) : Option Nat :=
  (s.closed.find? (·.name == some name)).map (·.index)

end Scope

inductive Naming : List Char → Option String → Prop
  | none : Naming [] none
  | some {name : List Char} (nonempty : name ≠ []) (chars : ∀ c ∈ name, isNameChar c = true) :
      Naming ('?' :: '<' :: name ++ ['>']) (some (String.ofList name))

/-! ## Expressions -/

mutual

/-- `Expr s w t s'`: where the groups of `s` stand in front, `w` is an expression with the tree
`t`, behind which stand those of `s'`. -/
inductive Expr : Scope → List Char → Tree → Scope → Prop
  | intro {s s' : Scope} {w : List Char} {ts : List Tree} (h : Branches s w ts s') :
      Expr s w (.ofBranches ts) s'

inductive Branches : Scope → List Char → List Tree → Scope → Prop
  | one {s s' : Scope} {w : List Char} {t : Tree} (h : Branch s w t s') : Branches s w [t] s'
  | bar {s s' s'' : Scope} {v w : List Char} {ts : List Tree} {t : Tree}
      (before : Branches s v ts s') (next : Branch s' w t s'') :
      Branches s (v ++ '|' :: w) (ts ++ [t]) s''

inductive Branch : Scope → List Char → Tree → Scope → Prop
  | intro {s s' : Scope} {w : List Char} {ts : List Tree} (h : Pieces s w ts s') :
      Branch s w (.ofPieces ts) s'

inductive Pieces : Scope → List Char → List Tree → Scope → Prop
  | nil (s : Scope) : Pieces s [] [] s
  | snoc {s s' s'' : Scope} {v w : List Char} {ts : List Tree} {t : Tree}
      (before : Pieces s v ts s') (next : Piece s' w t s'') : Pieces s (v ++ w) (ts ++ [t]) s''

inductive Piece : Scope → List Char → Tree → Scope → Prop
  | plain (count : Nat) {s s' : Scope} {w : List Char} {t : Tree} (h : Atom s w t s') :
      Piece s (markers count ++ w) t s'
  | quantified (count : Nat) (own isLazy : Bool) {s s' : Scope} {v w : List Char} {t : Tree}
      {q : Quantifier} (h : Atom s v t s') (bounds : Bounds w q) :
      Piece s (markers count ++ v ++ (optionally own marker ++ (w ++ optionally isLazy ['?'])))
        (.rep q t) s'

inductive Atom : Scope → List Char → Tree → Scope → Prop
  | set {s : Scope} {w : List Char} {members : CharClass} (h : ClassText w members) :
      Atom s w (.set members) s
  | anchor {s : Scope} {c : Char} (h : c = '^' ∨ c = '$') : Atom s [c] (.text []) s
  | group {s s' : Scope} {w : List Char} {t : Tree} (body : Expr s w t s') :
      Atom s ('(' :: '?' :: ':' :: w ++ [')']) (.group t) s'
  | capture {s s' : Scope} {v w : List Char} {name : Option String} {t : Tree}
      (naming : Naming v name) (body : Expr s.enter w t s') :
      Atom s ('(' :: v ++ w ++ [')']) (.capture (s.opened + 1) name t)
        (s'.leave ⟨s.opened + 1, name, t⟩)
  /-- The name of a GUID stands for a pattern, which is read in its place. -/
  | guid {s s' : Scope} {t : Tree} (h : Expr s guidPattern.toList t s') :
      Atom s ['[', ':', 'g', 'u', 'i', 'd', ':', ']'] t s'
  | numbered {s : Scope} {d : Char} {index : Nat} {g : Group} (digit : digitOf? 10 d = some index)
      (known : s.group? index = some g) : Atom s ['\\', d] (.reference index g.body) s
  | named {s : Scope} {name : List Char} {index : Nat} {g : Group}
      (meant : s.index? (String.ofList name) = some index) (known : s.group? index = some g) :
      Atom s ('\\' :: 'k' :: '<' :: name ++ ['>']) (.reference index g.body) s
  | literals {s : Scope} {w cs : List Char} (some : cs ≠ []) (h : Literals w cs) :
      Atom s w (.text cs) s

end

end PatternSampler.Grammar

namespace PatternSampler.Node

open Grammar (Tree)

mutual

/-- Forgets the identities and the marks. -/
def tree : Node → Tree
  | text _ chars => .text chars
  | set _ members => .set members
  | rep _ quantifier body => .rep quantifier (tree body)
  | seq _ children => .seq (treeEach children)
  | alt _ children => .alt (treeEach children)
  | group _ body => .group (tree body)
  | capture _ index name body => .capture index name (tree body)
  | backref _ _ index body => .reference index (tree body)

def treeEach : List Node → List Tree
  | [] => []
  | n :: rest => tree n :: treeEach rest

end

theorem treeEach_eq (ns : List Node) : treeEach ns = ns.map tree := by
  induction ns with
  | nil => rfl
  | cons n rest ih => simp [treeEach, ih]

end PatternSampler.Node
