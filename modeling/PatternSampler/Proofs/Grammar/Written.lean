import PatternSampler.Proofs.Grammar.Basic
import PatternSampler.Proofs.Phrase.Numbering

/-!
# Phrases and their texts

A phrase that is numbered becomes a tree, in which a reference holds the group that it means.
So the tree depends on the groups that have been numbered before, which are those that the text
has closed.  For every way to build a phrase there is a rule of the grammar that builds its text
and its tree.
-/

namespace PatternSampler

open Grammar

/-- The groups that have been numbered are those that are closed. -/
def Numbering.Knows (n : Numbering) (s : Scope) : Prop :=
  n.groups.map (fun g => (g.index, g.body.tree)) = s.closed.map fun g => (g.index, g.body)

theorem Numbering.knows_start : start.Knows .start := rfl

theorem Numbering.Knows.group? {n : Numbering} {s : Scope} (known : n.Knows s) {index : Nat}
    {g : Group} (found : s.group? index = some g) :
    ∃ numbered, n.group? index = some numbered ∧ numbered.body.tree = g.body := by
  have same := congrArg (List.find? fun g => g.1 == index) known
  simp only [List.find?_map, Function.comp_def] at same
  have found : s.closed.find? (fun g => g.index == index) = some g := found
  rw [found] at same
  obtain ⟨numbered, found, same⟩ := Option.map_eq_some_iff.1 same
  exact ⟨numbered, found, congrArg Prod.snd same⟩

def Joint.tree : Joint → List Tree → Tree
  | sequence => .ofPieces
  | alternative => .ofBranches

theorem Numbering.Knows.join {n : Numbering} {s : Scope} (known : n.Knows s) (marked : Bool)
    (joint : Joint) (ns : List Node) :
    (n.join marked joint ns).1.tree = joint.tree (ns.map Node.tree) ∧
      (n.join marked joint ns).2.Knows s := by
  match joint, ns with
  | .sequence, [] | .alternative, [] | .sequence, [_] | .alternative, [_] => exact ⟨rfl, known⟩
  | .sequence, first :: second :: rest =>
      exact ⟨congrArg Tree.seq (Node.treeEach_eq (first :: second :: rest)), known⟩
  | .alternative, first :: second :: rest =>
      exact ⟨congrArg Tree.alt (Node.treeEach_eq (first :: second :: rest)), known⟩

namespace Phrase

variable {s s' s'' : Scope} {p : Phrase} {ps : List Phrase} {t : Tree} {ts : List Tree}

/-- The phrase has the tree `t` where the groups of `s` are closed before it and those of `s'`
behind it. -/
def Yields (s : Scope) (p : Phrase) (t : Tree) (s' : Scope) : Prop :=
  ∀ marked n, n.Knows s → (p.number marked n).1.tree = t ∧ (p.number marked n).2.Knows s'

def YieldsEach (s : Scope) (ps : List Phrase) (ts : List Tree) (s' : Scope) : Prop :=
  ∀ marked n, n.Knows s → (numberEach marked ps n).1.map Node.tree = ts ∧
    (numberEach marked ps n).2.Knows s'

theorem yields_text (s : Scope) (chars : List Char) : (text chars).Yields s (.text chars) s :=
  fun _ _ known => ⟨rfl, known⟩

theorem yields_set (s : Scope) (members : CharClass) : (set members).Yields s (.set members) s :=
  fun _ _ known => ⟨rfl, known⟩

theorem yields_reference {index : Nat} {g : Group} (found : s.group? index = some g) :
    (reference index).Yields s (.reference index g.body) s := by
  intro marked n known
  obtain ⟨numbered, found, same⟩ := known.group? found
  simp only [number, found]
  exact ⟨congrArg (Tree.reference index) same, known⟩

theorem Yields.rep (h : p.Yields s t s') (own : Bool) (q : Quantifier) :
    (rep own q p).Yields s (.rep q t) s' := fun marked n known =>
  ⟨congrArg (Tree.rep q) (h marked n known).1, (h marked n known).2⟩

theorem Yields.group (h : p.Yields s t s') : (group p).Yields s (.group t) s' :=
  fun marked n known => ⟨congrArg Tree.group (h marked n known).1, (h marked n known).2⟩

theorem Yields.capture (h : p.Yields s t s') (index : Nat) (name : Option String) :
    (capture index name p).Yields s (.capture index name t) (s'.leave ⟨index, name, t⟩) := by
  intro marked n known
  obtain ⟨tree, known⟩ := h marked n known
  refine ⟨congrArg (Tree.capture index name) tree, ?_⟩
  simpa [Numbering.Knows, number, Numbering.capture, Numbering.node, Scope.leave, tree] using known

theorem Yields.markedIf (h : p.Yields s t s') (isMarked : Bool) :
    (markedIf isMarked p).Yields s t s' := by
  cases isMarked with
  | false => exact h
  | true => exact fun _ n known => h true n known

theorem yieldsEach_nil (s : Scope) : YieldsEach s [] [] s := fun _ _ known => ⟨rfl, known⟩

theorem YieldsEach.snoc (h : YieldsEach s ps ts s') (next : p.Yields s' t s'') :
    YieldsEach s (ps ++ [p]) (ts ++ [t]) s'' := by
  intro marked n known
  obtain ⟨trees, known⟩ := h marked n known
  obtain ⟨tree, known⟩ := next marked _ known
  rw [numberEach_append]
  exact ⟨by rw [List.map_append, trees, ← tree]; rfl, known⟩

theorem YieldsEach.branch (h : YieldsEach s ps ts s') :
    (branch ps).Yields s (.ofPieces ts) s' := by
  intro marked n known
  obtain ⟨rfl, known⟩ := h marked n known
  exact known.join marked .sequence _

theorem YieldsEach.choice (h : YieldsEach s ps ts s') :
    (choice ps).Yields s (.ofBranches ts) s' := by
  intro marked n known
  obtain ⟨rfl, known⟩ := h marked n known
  exact known.join marked .alternative _

end Phrase

namespace Grammar

variable {s s' s'' : Scope} {v w : List Char} {p : Phrase} {ps : List Phrase}

/-- By the rule `R`, the text `w` has the tree that the phrase has. -/
def Written (R : Scope → List Char → Tree → Scope → Prop) (s : Scope) (w : List Char) (p : Phrase)
    (s' : Scope) : Prop :=
  ∃ t, R s w t s' ∧ p.Yields s t s'

def WrittenEach (R : Scope → List Char → List Tree → Scope → Prop) (s : Scope) (w : List Char)
    (ps : List Phrase) (s' : Scope) : Prop :=
  ∃ ts, R s w ts s' ∧ Phrase.YieldsEach s ps ts s'

theorem Written.set {members : CharClass} (s : Scope) (h : ClassText w members) :
    Written Atom s w (.set members) s :=
  ⟨_, .set h, Phrase.yields_set s members⟩

theorem Written.anchor {c : Char} (s : Scope) (h : c = '^' ∨ c = '$') :
    Written Atom s [c] (.text []) s :=
  ⟨_, .anchor h, Phrase.yields_text s []⟩

theorem Written.literals {cs : List Char} (s : Scope) (some : cs ≠ []) (h : Literals w cs) :
    Written Atom s w (.text cs) s :=
  ⟨_, .literals some h, Phrase.yields_text s cs⟩

theorem Written.group (h : Written Expr s w p s') :
    Written Atom s ('(' :: '?' :: ':' :: w ++ [')']) (.group p) s' :=
  let ⟨_, expr, yields⟩ := h
  ⟨_, .group expr, yields.group⟩

theorem Written.capture {name : Option String} (naming : Naming v name)
    (h : Written Expr s.enter w p s') :
    ∃ t, Written Atom s ('(' :: v ++ w ++ [')']) (.capture (s.opened + 1) name p)
      (s'.leave ⟨s.opened + 1, name, t⟩) :=
  let ⟨t, expr, yields⟩ := h
  -- Opening a group changes nothing that is closed.
  have outside : p.Yields s t s' := yields
  ⟨t, _, .capture naming expr, outside.capture _ name⟩

theorem Scope.exists_group? {g : Group} (h : g ∈ s.closed) : ∃ g', s.group? g.index = some g' :=
  Option.isSome_iff_exists.1 (List.find?_isSome.2 ⟨g, h, beq_self_eq_true g.index⟩)

theorem Written.numbered {d : Char} {index : Nat}
    (resolved : ((s.closed.map fun g => (g.index, g.name)).find? fun g =>
      some g.1 == digitOf? 10 d).map (·.1) = some index) :
    Written Atom s ['\\', d] (.reference index) s := by
  rw [List.find?_map, Option.map_map, Option.map_eq_some_iff] at resolved
  obtain ⟨g, found, rfl⟩ := resolved
  have digit : digitOf? 10 d = some g.index := by
    have same := List.find?_some found
    exact (beq_iff_eq.1 same).symm
  obtain ⟨g', known⟩ := Scope.exists_group? (List.mem_of_find?_eq_some found)
  exact ⟨_, .numbered digit known, Phrase.yields_reference known⟩

theorem Written.named {name : List Char} {index : Nat}
    (resolved : ((s.closed.map fun g => (g.index, g.name)).find? fun g =>
      g.2 == some (String.ofList name)).map (·.1) = some index) :
    Written Atom s ('\\' :: 'k' :: '<' :: name ++ ['>']) (.reference index) s := by
  rw [List.find?_map, Option.map_map] at resolved
  have meant : s.index? (String.ofList name) = some index := resolved
  obtain ⟨g, found, rfl⟩ := Option.map_eq_some_iff.1 resolved
  obtain ⟨g', known⟩ := Scope.exists_group? (List.mem_of_find?_eq_some found)
  exact ⟨_, .named meant known, Phrase.yields_reference known⟩

theorem Written.plain (count : Nat) (isMarked : Bool) (h : Written Atom s w p s') :
    Written Piece s (markers count ++ w) (.markedIf isMarked p) s' :=
  let ⟨_, atom, yields⟩ := h
  ⟨_, .plain count atom, yields.markedIf isMarked⟩

theorem Written.quantified (count : Nat) (isMarked own honored isLazy : Bool) {q : Quantifier}
    (h : Written Atom s v p s') (bounds : Bounds w q) :
    Written Piece s
      (markers count ++ v ++ (optionally own marker ++ (w ++ optionally isLazy ['?'])))
      (.markedIf isMarked (.rep honored q p)) s' :=
  let ⟨_, atom, yields⟩ := h
  ⟨_, .quantified count own isLazy atom bounds, (yields.rep honored q).markedIf isMarked⟩

theorem writtenEach_nil (s : Scope) : WrittenEach Pieces s [] [] s :=
  ⟨[], .nil s, Phrase.yieldsEach_nil s⟩

theorem WrittenEach.snoc (h : WrittenEach Pieces s v ps s') (next : Written Piece s' w p s'') :
    WrittenEach Pieces s (v ++ w) (ps ++ [p]) s'' :=
  let ⟨_, pieces, each⟩ := h
  let ⟨_, piece, yields⟩ := next
  ⟨_, .snoc pieces piece, each.snoc yields⟩

theorem WrittenEach.branch (h : WrittenEach Pieces s w ps s') :
    Written Branch s w (.branch ps) s' :=
  let ⟨_, pieces, each⟩ := h
  ⟨_, .intro pieces, each.branch⟩

theorem Written.single (h : Written Branch s w p s') : WrittenEach Branches s w [p] s' :=
  let ⟨_, branch, yields⟩ := h
  ⟨_, .one branch, (Phrase.yieldsEach_nil s).snoc yields⟩

theorem WrittenEach.bar (h : WrittenEach Branches s v ps s') (next : Written Branch s' w p s'') :
    WrittenEach Branches s (v ++ '|' :: w) (ps ++ [p]) s'' :=
  let ⟨_, branches, each⟩ := h
  let ⟨_, branch, yields⟩ := next
  ⟨_, .bar branches branch, each.snoc yields⟩

theorem WrittenEach.choice (h : WrittenEach Branches s w ps s') :
    Written Expr s w (.choice ps) s' :=
  let ⟨_, branches, each⟩ := h
  ⟨_, .intro branches, each.choice⟩

theorem classText_upperHexDigits : ClassText ['[', 'A', '-', 'F', '0', '-', '9', ']']
    (.ofSpans false CharClass.upperHexDigits) := by
  have plain {first : Bool} {c : Char} (unescaped : c ≠ '\\') (inside : c ≠ ']') :
      ClassChar first [c] c := .plain unescaped fun closes => (inside closes).elim
  have letters : Item true ['A', '-', 'F'] (.span 'A' 'F') :=
    .range (v := ['A']) (plain (by decide) (by decide)) (plain (by decide) (by decide))
      (by decide) (by decide)
  have numbers : Item false ['0', '-', '9'] (.span '0' '9') :=
    .range (v := ['0']) (plain (by decide) (by decide)) (plain (by decide) (by decide))
      (by decide) (by decide)
  exact .bracket false (.cons letters (.last numbers)) rfl

theorem written_guidDigits (s : Scope) {ds : List Char} {n : Nat} (count : Count ds n) :
    Written Piece s (['[', 'A', '-', 'F', '0', '-', '9', ']', '\x7b'] ++ ds ++ ['\x7d'])
      (Phrase.guidDigits n) s := by
  have piece := (Written.set s classText_upperHexDigits).quantified 0 false false false false
    (.exactly false count)
  simpa [markers, optionally, Phrase.markedIf, Phrase.guidDigits] using piece

theorem written_guid (s : Scope) : Written Expr s guidPattern.toList .guid s := by
  have digit {c : Char} {d : Nat} (h : digitOf? 10 c = some d) : Numeral 10 [c] (0 * 10 + d) :=
    Numeral.nil.snoc h
  have eight : Count ['8'] 8 := ⟨by decide, digit (d := 8) rfl, by decide⟩
  have four : Count ['4'] 4 := ⟨by decide, digit (d := 4) rfl, by decide⟩
  have three : Count ['3'] 3 := ⟨by decide, digit (d := 3) rfl, by decide⟩
  have twelve : Count ['1', '2'] 12 :=
    ⟨by decide, (digit (d := 1) rfl).snoc (d := 2) rfl, by decide⟩
  have hyphen : Written Atom s ['-'] (.text ['-']) s :=
    .literals s (by decide) (Literals.nil.snoc (.plain (by decide)))
  have block := ((writtenEach_nil s).snoc (hyphen.plain 0 false)).snoc (written_guidDigits s four)
  have blocks := block.branch.single.choice.group.quantified 0 false false false false
    (.exactly false three)
  exact ((((writtenEach_nil s).snoc (written_guidDigits s eight)).snoc blocks).snoc
    (hyphen.plain 0 false)).snoc (written_guidDigits s twelve) |>.branch.single.choice

end Grammar

end PatternSampler
