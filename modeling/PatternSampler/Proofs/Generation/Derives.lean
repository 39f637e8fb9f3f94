import PatternSampler.Generation.Basic

/-!
# Derivations

What a tree may spell when one of its nodes is chosen to break: the chosen node deviates
wherever it occurs and every other node conforms.  A derivation also tells how often the
chosen node occurs in it, where a unit that is copied counts once.
-/

namespace PatternSampler

def Misspells (chars w : List Char) : Prop :=
  ∃ i c, ∃ h : i < chars.length, c ≠ chars[i] ∧ w = chars.set i c

namespace Quantifier

/-- A count within the bounds, and not far above the lower one if there is no upper one. -/
def Conforms (q : Quantifier) (slack count : Nat) : Prop :=
  q.Allows count ∧ (q.max = none → count ≤ Nat.max (Nat.min (q.min + slack) largestCount) 1)

/-- A count outside of the bounds, and not far above the upper one. -/
def Breaks (q : Quantifier) (slack count : Nat) : Prop :=
  ¬q.Allows count ∧ ∀ max, q.max = some max → count ≤ max + Nat.max slack 1

end Quantifier

section

variable (P : List Char → Nat → Prop)

/-- A number of strings one after another, and the occurrences in all of them. -/
inductive Parts : Nat → List Char → Nat → Prop
  | zero : Parts 0 [] 0
  | succ {k : Nat} {u v : List Char} {m n : Nat} (first : P u m) (others : Parts k v n) :
      Parts (k + 1) (u ++ v) (m + n)

/-- One string a number of times, and the occurrences in it. -/
inductive Copied : Nat → List Char → Nat → Prop
  | zero : Copied 0 [] 0
  | succ {k : Nat} {u : List Char} {n : Nat} (unit : P u n) :
      Copied (k + 1) (List.replicate (k + 1) u).flatten n

def Repetitions : (same : Bool) → Nat → List Char → Nat → Prop
  | false => Parts P
  | true => Copied P

end

namespace Node

mutual

/-- The node can spell `w` so that the chosen node occurs `hits` times and deviates each
time, and everything else conforms. -/
def Derives (slack : Nat) (chosen : Option Nat) : Node → (w : List Char) → (hits : Nat) → Prop
  | .text tag chars, w, hits =>
      if chosen = some tag.id then Misspells chars w ∧ hits = 1 else w = chars ∧ hits = 0
  | set tag members, w, hits =>
      ∃ c, w = [c] ∧ members.alphabet.Holds c.toNat ∧
        if chosen = some tag.id then members.contains c = false ∧ hits = 1
        else members.contains c = true ∧ hits = 0
  | rep tag quantifier body, w, hits =>
      ∃ count inner, Repetitions (Derives slack chosen body) quantifier.same count w inner ∧
        if chosen = some tag.id then quantifier.Breaks slack count ∧ hits = inner + 1
        else quantifier.Conforms slack count ∧ hits = inner
  | seq _ children, w, hits => DerivesEach slack chosen children w hits
  | alt _ children, w, hits => DerivesAmong slack chosen children w hits
  | group _ body, w, hits => Derives slack chosen body w hits
  | capture _ _ _ body, w, hits => Derives slack chosen body w hits
  | backref _ _ _ body, w, hits => Derives slack chosen body w hits

def DerivesEach (slack : Nat) (chosen : Option Nat) : List Node → List Char → Nat → Prop
  | [], w, hits => w = [] ∧ hits = 0
  | n :: rest, w, hits => ∃ u v i j, w = u ++ v ∧ hits = i + j ∧
      Derives slack chosen n u i ∧ DerivesEach slack chosen rest v j

def DerivesAmong (slack : Nat) (chosen : Option Nat) : List Node → List Char → Nat → Prop
  | [], _, _ => False
  | n :: rest, w, hits => Derives slack chosen n w hits ∨ DerivesAmong slack chosen rest w hits

end

theorem derivesAmong_iff {slack : Nat} {chosen : Option Nat} {ns : List Node} {w : List Char}
    {hits : Nat} :
    DerivesAmong slack chosen ns w hits ↔ ∃ n ∈ ns, n.Derives slack chosen w hits := by
  induction ns with
  | nil => simp [DerivesAmong]
  | cons n rest ih => simp [DerivesAmong, ih]

end Node

end PatternSampler
