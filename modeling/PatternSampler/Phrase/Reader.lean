import PatternSampler.Phrase.Guid
import PatternSampler.Token.Basic

/-!
# Reading phrases

A reader takes one token after another.  It keeps the groups that are still open,
and the last piece of the current branch apart from the others, because a
quantifier may follow that belongs to it.  A reader that does not honor markers
takes them as well, but they mark nothing.
-/

namespace PatternSampler

inductive LastPiece
  | none
  /-- Literal characters, the last one first: `last` and those `before` it. -/
  | literals (marked : Bool) (before : List Char) (last : Char)
  | atom (marked : Bool) (body : Phrase)
  | quantified (piece : Phrase)

namespace LastPiece

def toPiece? : LastPiece → Option Phrase
  | none => Option.none
  | literals marked before last => some (.markedIf marked (.text (before.reverse ++ [last])))
  | atom marked body => some (.markedIf marked body)
  | quantified piece => some piece

end LastPiece

/-- Markers that wait for what they mark, with the position of the first one. -/
inductive Waiting
  | none
  | one (position : Nat)
  | several (position : Nat)

namespace Waiting

def isMarked : Waiting → Bool
  | none => false
  | _ => true

def add (position : Nat) : Waiting → Waiting
  | none => one position
  | one first | several first => several first

end Waiting

/-- Branches at one depth of grouping, the newest first. -/
structure Level where
  branches : List Phrase
  pieces : List Phrase
  last : LastPiece

namespace Level

def empty : Level := ⟨[], [], .none⟩

def begin (l : Level) (last : LastPiece) : Level :=
  { l with pieces := l.last.toPiece?.toList ++ l.pieces, last }

def endBranch (l : Level) : Level :=
  let l := l.begin .none
  ⟨.branch l.pieces.reverse :: l.branches, [], .none⟩

def toPhrase (l : Level) : Phrase := .choice l.endBranch.branches.reverse

end Level

structure OpenGroup where
  position : Nat
  marked : Bool
  /-- Its number and its name, if it captures. -/
  capture : Option (Nat × Option String)
  outer : Level

def OpenGroup.wrap (g : OpenGroup) (body : Phrase) : Phrase :=
  match g.capture with
  | some (index, name) => .capture index name body
  | none => .group body

structure Reader where
  level : Level
  /-- The groups around the level, the innermost first. -/
  groups : List OpenGroup
  /-- How many capturing groups have been opened. -/
  captures : Nat
  /-- The capturing groups that have been closed, in that order. -/
  closed : List (Nat × Option String)
  waiting : Waiting
  honors : Bool
  /-- Whether a marker has been honored. -/
  hasMarker : Bool

namespace Reader

def start : Reader := ⟨.empty, [], 0, [], .none, true, false⟩

/-- Whether what comes next is marked. -/
def marks (r : Reader) : Bool := r.waiting.isMarked && r.honors

def resolve? (r : Reader) : GroupKey → Option Nat
  | .number digit => (r.closed.find? fun g => some g.1 == digitOf? 10 digit).map (·.1)
  | .name name => (r.closed.find? fun g => g.2 == some (String.ofList name)).map (·.1)

def marker (r : Reader) (position : Nat) : Reader :=
  { r with waiting := r.waiting.add position, hasMarker := r.hasMarker || r.honors }

def literal (r : Reader) (c : Char) : Reader :=
  let level := match r.waiting, r.level.last with
    | .none, .literals marked before last =>
        { r.level with last := .literals marked (last :: before) c }
    | _, _ => r.level.begin (.literals r.marks [] c)
  { r with level, waiting := .none }

def atom (r : Reader) (body : Phrase) : Reader :=
  { r with level := r.level.begin (.atom r.marks body), waiting := .none }

def openGroup (r : Reader) (position : Nat) (kind : GroupKind) : Reader :=
  let marked := r.marks
  match kind with
  | .plain =>
      { r with level := .empty, waiting := .none
               groups := ⟨position, marked, none, r.level⟩ :: r.groups }
  | .capturing name =>
      { r with level := .empty, waiting := .none
               groups := ⟨position, marked, some (r.captures + 1, name), r.level⟩ :: r.groups
               captures := r.captures + 1 }

/-- Leaves the innermost group, whose body is the current level. -/
def closeGroup (r : Reader) (g : OpenGroup) (groups : List OpenGroup) : Reader :=
  { r with
    level := g.outer.begin (.atom g.marked (g.wrap r.level.toPhrase))
    groups
    closed := r.closed ++ g.capture.toList }

def quantify (r : Reader) (position : Nat) (bounds : Except PatternError Quantifier) :
    Except PatternError Reader :=
  let finish (marked : Bool) (level : Level) (body : Phrase) := do
    let q ← bounds.mapError (PatternError.shift position)
    let piece := Phrase.markedIf marked (.rep r.marks q body)
    pure { r with level := { level with last := .quantified piece }, waiting := .none }
  match r.waiting, r.level.last with
  | .several _, _ | _, .none => .error ⟨position, .danglingQuantifier⟩
  | .none, .quantified _ => .error ⟨position, .danglingQuantifier⟩
  | .one marker, .quantified _ => .error ⟨marker, .danglingQuantifier⟩
  | _, .atom marked body => finish marked r.level body
  | _, .literals marked [] last => finish marked r.level (.text [last])
  | _, .literals marked (c :: before) last =>
      let earlier := { r.level with last := .literals marked before c }
      finish false (earlier.begin .none) (.text [last])

def needNoMarker (r : Reader) : Except PatternError Unit :=
  match r.waiting with
  | .none => pure ()
  | .one marker | .several marker => .error ⟨marker, .danglingMarker⟩

def step (r : Reader) (position : Nat) : Token → Except PatternError Reader
  | .literal c => pure (r.literal c)
  | .marker => pure (r.marker position)
  | .set members => pure (r.atom (.set members))
  | .guid => pure (r.atom .guid)
  | .anchor => pure (r.atom (.text []))
  | .opening kind => pure (r.openGroup position kind)
  | .closing => do
      r.needNoMarker
      match r.groups with
      | [] => throw ⟨position, .unmatchedParen⟩
      | g :: groups => pure (r.closeGroup g groups)
  | .bar => do
      r.needNoMarker
      pure { r with level := r.level.endBranch }
  | .quantifier bounds => r.quantify position bounds
  | .reference key =>
      match r.resolve? key with
      | some index => pure (r.atom (.reference index))
      | none => throw ⟨position, .unknownGroup key.text⟩
  | .invalid e => throw (e.shift position)

def finish (r : Reader) : Except PatternError Phrase := do
  r.needNoMarker
  match r.groups with
  | [] => pure r.level.toPhrase
  | g :: _ => throw ⟨g.position, .unmatchedParen⟩

def run (r : Reader) (tokens : List (Nat × Token)) : Except PatternError Reader :=
  tokens.foldlM (fun r t => r.step t.1 t.2) r

/-- The phrase of a text, and whether a marker in it has been honored. -/
def read (honors : Bool) (text : List Char) : Except PatternError (Phrase × Bool) := do
  let r ← run { start with honors } (tokens text)
  let p ← r.finish
  pure (p, r.hasMarker)

end Reader

end PatternSampler
