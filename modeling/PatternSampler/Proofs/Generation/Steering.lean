import PatternSampler.Proofs.CharClass.Selection
import PatternSampler.Proofs.Generation.Derives
import PatternSampler.Proofs.Generation.Ensures
import PatternSampler.Proofs.Pattern.Routes
import PatternSampler.Proofs.Pattern.WellFormed

/-!
# Where generation leads

A generator spells a derivation of its tree.  If a node is chosen, the route makes sure
that the derivation comes to it: every node on the route has a child on the route, takes
it, and may take it because no repetition on the route is barred.
-/

namespace PatternSampler

def GenerationError.IsEmptyAlphabet (e : GenerationError) : Prop := ∃ node, e = .emptyAlphabet node

namespace Generation

variable {E : GenerationError → Prop}

theorem ensures_character (node : Node) {c : CharClass} (hc : c.WellFormed) :
    (character node c).Ensures (fun e => c.selectable = 0 ∧ e = .emptyAlphabet node) fun ch =>
      c.alphabet.Holds ch.toNat ∧ c.contains ch = true := by
  unfold character
  split
  · rename_i empty
    exact (Ensures.throw ⟨empty, rfl⟩).bind (P := fun _ => False) fun _ h => h.elim
  · rename_i some
    apply (ensures_range (Nat.pos_of_ne_zero some)).bind
    intro n hn
    obtain ⟨ch, found⟩ := CharClass.exists_nth? hc hn
    rw [found]
    exact .pure (CharClass.of_nth? hc found)

theorem ensures_character_of_pos (node : Node) {c : CharClass} (hc : c.WellFormed)
    (some : 0 < c.selectable) : (character node c).Ensures E fun ch =>
      c.alphabet.Holds ch.toNat ∧ c.contains ch = true :=
  (ensures_character node hc).weaken fun _ h => absurd h.1 (Nat.ne_of_gt some)

theorem Ensures.repeated {unit : Generation (List Char)} {P : List Char → Nat → Prop}
    (h : unit.Ensures E fun w => ∃ hits, P w hits) (count : Nat) :
    (repeated unit count).Ensures E fun w => ∃ hits, Parts P count w hits := by
  induction count with
  | zero => exact .pure ⟨0, .zero⟩
  | succ count ih =>
      rw [repeated_succ]
      refine h.bind fun first ⟨i, hfirst⟩ => .map (ih.mono ?_)
      rintro others ⟨j, hothers⟩
      exact ⟨i + j, .succ hfirst hothers⟩

end Generation

theorem Parts.imp {P Q : List Char → Nat → Prop} {k : Nat} {w : List Char} {hits : Nat}
    (h : Parts P k w hits) (also : ∀ w hits, P w hits → Q w hits) : Parts Q k w hits := by
  induction h with
  | zero => exact .zero
  | succ first _ ih => exact .succ (also _ _ first) ih

theorem Parts.pos {P : List Char → Nat → Prop} {k : Nat} {w : List Char} {hits : Nat}
    (h : Parts P k w hits) (some : 0 < k) (each : ∀ w hits, P w hits → 0 < hits) : 0 < hits := by
  cases h with
  | zero => omega
  | succ first _ => exact Nat.add_pos_left (each _ _ first) _

namespace Generator

open Generation

variable {g : Generator} {E : GenerationError → Prop}

theorem ensures_misspelled (node : Node) {chars : List Char} (some : chars ≠ []) :
    (misspelled node chars).Ensures E (Misspells chars) := by
  unfold misspelled
  rw [if_neg (by simpa using some)]
  apply (ensures_range (List.length_pos_iff.2 some)).bind
  intro i hi
  rw [List.getElem?_eq_getElem hi]
  apply (ensures_character_of_pos node (CharClass.wellFormed_allExcept _)
    (CharClass.yields_allExcept _).nonempty).bind
  intro c hc
  exact .pure ⟨i, c, hi, CharClass.ne_of_contains_allExcept hc.1 hc.2, rfl⟩

theorem maxRepeat_le_largestCount : maxRepeat ≤ largestCount := by decide

theorem leastCount_bounds {q : Quantifier} (hq : q.WellFormed) {onRoute : Bool}
    (free : onRoute = true → q.max ≠ some 0) :
    let min := if q.min = 0 ∧ onRoute = true then 1 else q.min
    q.min ≤ min ∧ min ≤ Nat.max q.min 1 ∧ (onRoute = true → 0 < min) ∧
      ∀ max, q.max = some max → min ≤ max := by
  split
  · rename_i bumped
    refine ⟨by omega, Nat.le_max_right _ _, fun _ => by omega, fun max hmax => ?_⟩
    have some : max ≠ 0 := fun zero => free bumped.2 (hmax.trans (congrArg some zero))
    omega
  · rename_i kept
    refine ⟨Nat.le_refl _, Nat.le_max_left _ _, fun on => ?_, hq.ordered⟩
    have some : q.min ≠ 0 := fun zero => kept ⟨zero, on⟩
    omega

theorem ensures_conformingCount {tag : Tag} {q : Quantifier} (hq : q.WellFormed)
    (free : (g.route.childAt? tag.id).isSome = true → q.max ≠ some 0) :
    (g.conformingCount tag q).Ensures E fun k =>
      q.Conforms g.slack k ∧ ((g.route.childAt? tag.id).isSome = true → 0 < k) := by
  have capped := Nat.le_trans hq.min_le maxRepeat_le_largestCount
  obtain ⟨lower, small, positive, upper⟩ := leastCount_bounds hq free
  apply (ensures_between (Nat.le_max_left _ _)).mono
  rintro k ⟨hmin, hmax⟩
  have allowed : q.Allows k := by
    constructor
    · exact Nat.le_trans lower hmin
    · intro max bounded
      rwa [bounded, Option.getD_some, Nat.max_eq_right (upper max bounded)] at hmax
  have close (unbounded : q.max = none) :
      k ≤ Nat.max (Nat.min (q.min + g.slack) largestCount) 1 := by
    rw [unbounded, Option.getD_none] at hmax
    have slack : q.min ≤ Nat.min (q.min + g.slack) largestCount :=
      Nat.le_min.2 ⟨Nat.le_add_right _ _, capped⟩
    apply Nat.le_trans hmax (Nat.max_le.2 ⟨Nat.le_trans small _, Nat.le_max_left _ _⟩)
    exact Nat.max_le.2 ⟨Nat.le_trans slack (Nat.le_max_left _ _), Nat.le_max_right _ _⟩
  exact ⟨⟨allowed, close⟩, fun on => Nat.lt_of_lt_of_le (positive on) hmin⟩

theorem ensures_violatingCount {q : Quantifier} (hq : q.WellFormed) (violable : q.violable = true) :
    (g.violatingCount q).Ensures E (q.Breaks g.slack) := by
  have below (k : Nat) (hk : k ≤ q.min - 1) (some : 0 < q.min) : q.Breaks g.slack k := by
    constructor
    · intro allowed
      have := allowed.1
      omega
    · intro max hmax
      have := hq.ordered max hmax
      omega
  unfold violatingCount
  split
  · rename_i unbounded
    have some : 0 < q.min := by simpa [Quantifier.violable, unbounded] using violable
    rw [if_pos some]
    exact (ensures_between (Nat.zero_le _)).mono fun k hk => below k hk.2 some
  · rename_i max bounded
    have capped : max + 1 ≤ largestCount :=
      Nat.le_trans (Nat.succ_le_succ (hq.max_le max bounded)) (by decide)
    have some : max + 1 ≤ Nat.min (max + Nat.max g.slack 1) largestCount :=
      Nat.le_min.2 ⟨Nat.add_le_add_left (Nat.le_max_right _ _) _, capped⟩
    have above (k : Nat) (hk : max + 1 ≤ k ∧ k ≤ Nat.min (max + Nat.max g.slack 1) largestCount) :
        q.Breaks g.slack k := by
      constructor
      · intro allowed
        have := allowed.2 max bounded
        omega
      · intro other same
        cases bounded.symm.trans same
        exact Nat.le_trans hk.2 (Nat.min_le_left _ _)
    dsimp only
    split
    · rename_i lower
      refine Ensures.bind (P := fun _ => True) (.lift fun _ => trivial) fun goBelow _ => ?_
      split
      · exact (ensures_between (Nat.zero_le _)).mono fun k hk => below k hk.2 lower
      · exact (ensures_between some).mono above
    · exact (ensures_between some).mono above

def Bound (g : Generator) (n : Node) : Prop :=
  g.chosen = some n.id ∨ (g.route.childAt? n.id).isSome = true

/-- The chosen node can deviate, and the route goes on to it from every node on it. -/
structure Steers (g : Generator) (root : Node) : Prop where
  deviates : ∀ n ∈ root.nodes, g.chosen = some n.id → n.canDeviate = true
  onwards : ∀ n ∈ root.nodes, ∀ id, g.route.childAt? n.id = some id →
    n.barred = false ∧ ∃ c ∈ n.children, c.id = id ∧ g.Bound c

theorem steers_conforming (slack : Nat) (root : Node) : (conforming slack).Steers root where
  deviates _ _ h := by cases h
  onwards _ _ _ h := by cases h

theorem Steers.of_eligible (slack : Nat) {root e : Node} (distinct : root.Distinct)
    (he : e ∈ root.eligible) :
    (invalidating slack root e.id).Steers root ∧ (invalidating slack root e.id).Bound root := by
  obtain ⟨route, found⟩ := Node.exists_routeTo? (Node.mem_nodes_of_eligible he)
  have leads := Node.leadsTo_of_routeTo? found
  have generator : invalidating slack root e.id = ⟨slack, some e.id, route⟩ := by
    rw [invalidating, found, Option.getD_some]
  rw [generator]
  refine ⟨⟨fun n owned same => ?_, fun n owned id turn => ?_⟩, ?_⟩
  · have := distinct.eq_of_id_eq (Node.mem_nodes_of_eligible he) owned (Option.some.inj same)
    exact this ▸ Node.canDeviate_of_eligible he
  · obtain ⟨free, c, child, next, bound⟩ := Node.turn_of_eligible distinct he found owned turn
    exact ⟨free, c, child, next, bound.imp_left fun same => congrArg some same.symm⟩
  · exact leads.begins.imp_left fun same => congrArg some same.symm

/-- A run at the node fails in a certain way, or spells a derivation that comes to the chosen
node if the node leads there. -/
def SpellsUnless (g : Generator) (E : GenerationError → Prop) (n : Node) : Prop :=
  (g.generate n).Ensures E fun w =>
    ∃ hits, n.Derives g.slack g.chosen w hits ∧ (g.Bound n → 0 < hits)

def Spells (g : Generator) (n : Node) : Prop :=
  (g.generate n).Ensures GenerationError.IsEmptyAlphabet fun w =>
    ∃ hits, n.Derives g.slack g.chosen w hits ∧ (g.Bound n → 0 < hits)

/-- The error blames a class of the tree that has nothing to select from, and is not the
chosen node. -/
def Starved (g : Generator) (root : Node) (e : GenerationError) : Prop :=
  ∃ tag members, .set tag members ∈ root.nodes ∧ g.chosen ≠ some tag.id ∧
    members.selectable = 0 ∧ e = .emptyAlphabet (.set tag members)

theorem generateAt_eq (ns : List Node) (place : Nat) :
    g.generateAt ns place = match ns[place]? with
      | some n => g.generate n
      | none => pure [] := by
  induction ns generalizing place with
  | nil => rfl
  | cons n rest ih => cases place with
    | zero => rfl
    | succ place => simpa [generateAt] using ih place

theorem ensures_generateEach {ns : List Node} (each : ∀ n ∈ ns, g.SpellsUnless E n) :
    (g.generateEach ns).Ensures E fun w =>
      ∃ hits, Node.DerivesEach g.slack g.chosen ns w hits ∧ ((∃ n ∈ ns, g.Bound n) → 0 < hits) := by
  induction ns with
  | nil => exact .pure ⟨0, ⟨rfl, rfl⟩, by simp⟩
  | cons n rest ih =>
      obtain ⟨hn, hrest⟩ := List.forall_mem_cons.1 each
      refine hn.bind fun u ⟨i, hu, first⟩ => (ih hrest).bind fun v ⟨j, hv, others⟩ => ?_
      refine .pure ⟨i + j, ⟨u, v, i, j, rfl, rfl, hu, hv⟩, ?_⟩
      rintro ⟨m, hm, bound⟩
      rcases List.mem_cons.1 hm with rfl | hm
      · exact Nat.add_pos_left (first bound) j
      · exact Nat.add_pos_right i (others ⟨m, hm, bound⟩)

theorem ensures_branch {tag : Tag} {children : List Node} (nonempty : children ≠ [])
    (onwards : ∀ id, g.route.childAt? tag.id = some id → ∃ c ∈ children, c.id = id ∧ g.Bound c) :
    (g.branch tag children).Ensures E fun place => ∃ i, place = some i ∧
      ∃ h : i < children.length, (g.route.childAt? tag.id).isSome = true → g.Bound children[i] := by
  unfold branch
  split
  · rename_i id turn
    obtain ⟨c, hc, rfl, bound⟩ := onwards id turn
    have found : (children.findIdx? (·.id == c.id)).isSome = true := by
      rw [List.findIdx?_isSome, List.any_eq_true]
      exact ⟨c, hc, by simp⟩
    obtain ⟨i, place⟩ := Option.isSome_iff_exists.1 found
    obtain ⟨h, same, -⟩ := List.findIdx?_eq_some_iff_getElem.1 place
    refine .pure ⟨i, place, h, fun _ => ?_⟩
    rwa [Bound, show children[i].id = c.id by simpa using same]
  · rename_i turn
    have range := exists_range (List.length_pos_iff.2 nonempty)
    apply Ensures.lift
    intro source
    obtain ⟨i, drawn, h⟩ := range source
    exact ⟨i, drawn, h, by simp [turn]⟩

theorem isChosen_iff {tag : Tag} : g.isChosen tag = true ↔ g.chosen = some tag.id := by
  simp [isChosen]

section

variable {root n : Node} (steers : g.Steers root) (owned : n ∈ root.nodes) (bound : g.Bound n)
include steers owned bound

theorem Steers.chosen_of_leaf (leaf : n.children = []) : g.chosen = some n.id := by
  rcases bound with chosen | turn
  · exact chosen
  · obtain ⟨id, turn⟩ := Option.isSome_iff_exists.1 turn
    obtain ⟨-, c, child, -⟩ := steers.onwards n owned id turn
    simp [leaf] at child

theorem Steers.turn_of_rigid (rigid : n.canDeviate = false) :
    (g.route.childAt? n.id).isSome = true := by
  rcases bound with chosen | turn
  · simp [steers.deviates n owned chosen] at rigid
  · exact turn

theorem Steers.child_of_rigid (rigid : n.canDeviate = false) : ∃ c ∈ n.children, g.Bound c := by
  obtain ⟨id, turn⟩ := Option.isSome_iff_exists.1 (steers.turn_of_rigid owned bound rigid)
  obtain ⟨-, c, child, -, bound⟩ := steers.onwards n owned id turn
  exact ⟨c, child, bound⟩

end

theorem copies_eq (count : Nat) (unit : List Char) :
    copies count unit = (List.replicate count unit).flatten := by
  unfold copies
  split <;> simp_all

theorem ensures_repetitions {body : Node} (spells : g.SpellsUnless E body) (same : Bool)
    (count : Nat) :
    Ensures (if same then
        if count = 0 then pure []
        else do
          let unit ← g.generate body
          pure (copies count unit)
      else repeated (g.generate body) count) E fun w => ∃ inner,
        Repetitions (body.Derives g.slack g.chosen) same count w inner ∧
          (0 < count → g.Bound body → 0 < inner) := by
  cases same with
  | false =>
      refine (spells.repeated count).mono ?_
      rintro w ⟨inner, parts⟩
      refine ⟨inner, parts.imp fun _ _ h => h.1, fun some bound => ?_⟩
      exact parts.pos some fun _ _ h => h.2 bound
  | true =>
      cases count with
      | zero => exact .pure ⟨0, .zero, by simp⟩
      | succ count =>
          refine spells.bind fun unit ⟨inner, spelled, passes⟩ => .pure ⟨inner, ?_, fun _ => passes⟩
          rw [copies_eq]
          exact .succ spelled

theorem Steers.ensures_count {root body : Node} {tag : Tag} {q : Quantifier}
    (steers : g.Steers root) (owned : .rep tag q body ∈ root.nodes) (hq : q.WellFormed) :
    (g.count tag q).Ensures E fun k =>
      if g.chosen = some tag.id then q.Breaks g.slack k
      else q.Conforms g.slack k ∧ ((g.route.childAt? tag.id).isSome = true → 0 < k) := by
  unfold count
  split
  · rename_i chosen
    simp only [if_pos (isChosen_iff.1 chosen)]
    exact ensures_violatingCount hq (steers.deviates _ owned (isChosen_iff.1 chosen))
  · rename_i other
    simp only [if_neg fun chosen => other (isChosen_iff.2 chosen)]
    apply ensures_conformingCount hq
    intro turn
    obtain ⟨id, turn⟩ := Option.isSome_iff_exists.1 turn
    simpa [Node.barred] using (steers.onwards _ owned id turn).1

section

variable {root : Node} {tag : Tag} (steers : g.Steers root)
include steers

theorem Steers.spellsUnless_text {chars : List Char} (owned : .text tag chars ∈ root.nodes) :
    g.SpellsUnless E (.text tag chars) := by
  rw [SpellsUnless, generate]
  simp only [Node.Derives, isChosen_iff]
  split
  · rename_i chosen
    have some : chars ≠ [] := by
      simpa [Node.canDeviate] using steers.deviates _ owned chosen
    apply (ensures_misspelled _ some).mono
    intro w hw
    exact ⟨1, ⟨hw, rfl⟩, fun _ => Nat.one_pos⟩
  · rename_i other
    refine .pure ⟨0, ⟨rfl, rfl⟩, fun bound => ?_⟩
    exact absurd (steers.chosen_of_leaf owned bound rfl) other

theorem Steers.spellsUnless_set {members : CharClass} (hmembers : members.WellFormed)
    (owned : .set tag members ∈ root.nodes) :
    g.SpellsUnless (g.Starved root) (.set tag members) := by
  rw [SpellsUnless, generate]
  simp only [Node.Derives, isChosen_iff]
  split
  · rename_i chosen
    have lacks : members.isFull = false := by
      simpa [Node.canDeviate] using steers.deviates _ owned chosen
    apply (ensures_character_of_pos _ hmembers.complement
      (CharClass.yields_complement hmembers lacks).nonempty).bind
    intro c hc
    rw [CharClass.contains_complement] at hc
    exact .pure ⟨1, ⟨c, rfl, hc.1, by simpa using hc.2, rfl⟩, fun _ => Nat.one_pos⟩
  · rename_i other
    apply ((ensures_character _ hmembers).weaken fun e h =>
      ⟨tag, members, owned, other, h.1, h.2⟩).bind
    intro c hc
    refine .pure ⟨0, ⟨c, rfl, hc.1, hc.2, rfl⟩, fun bound => ?_⟩
    exact absurd (steers.chosen_of_leaf owned bound rfl) other

theorem Steers.spellsUnless_rep {q : Quantifier} {body : Node} (hq : q.WellFormed)
    (owned : .rep tag q body ∈ root.nodes) (spells : g.SpellsUnless E body) :
    g.SpellsUnless E (.rep tag q body) := by
  rw [SpellsUnless, generate]
  apply (steers.ensures_count owned hq).bind
  intro count hcount
  refine (ensures_repetitions spells q.same count).mono ?_
  rintro w ⟨inner, spelled, passes⟩
  split at hcount
  · rename_i chosen
    refine ⟨inner + 1, ⟨count, inner, spelled, ?_⟩, fun _ => Nat.succ_pos inner⟩
    rw [if_pos chosen]
    exact ⟨hcount, rfl⟩
  · rename_i other
    refine ⟨inner, ⟨count, inner, spelled, ?_⟩, fun bound => ?_⟩
    · rw [if_neg other]
      exact ⟨hcount.1, rfl⟩
    · rcases bound with chosen | turn
      · exact absurd chosen other
      · obtain ⟨id, next⟩ := Option.isSome_iff_exists.1 turn
        obtain ⟨-, c, child, -, bound⟩ := steers.onwards _ owned id next
        obtain rfl : c = body := List.mem_singleton.1 child
        exact passes (hcount.2 turn) bound

end

/-- Every run at a node of a well-formed tree spells a derivation, which comes to the
chosen node if the node leads there, unless some class has nothing to select from. -/
theorem Steers.spellsUnless {p : Pattern} (hp : p.WellFormed) (steers : g.Steers p.root) {n : Node}
    (owned : n ∈ p.root.nodes) : g.SpellsUnless (g.Starved p.root) n := by
  have inside {n c : Node} (owned : n ∈ p.root.nodes) (child : c ∈ n.children) :
      c ∈ p.root.nodes := Node.child_mem_nodes child owned
  induction n with
  | text tag chars => exact steers.spellsUnless_text owned
  | set tag members => exact steers.spellsUnless_set (hp.sound _ owned) owned
  | rep tag quantifier body ih =>
      have spells := ih (inside owned (List.mem_singleton_self body))
      exact steers.spellsUnless_rep (hp.sound _ owned) owned spells
  | seq tag children ih =>
      refine (ensures_generateEach fun n hn => ih n hn (inside owned hn)).mono ?_
      rintro w ⟨hits, spelled, passes⟩
      exact ⟨hits, spelled, fun bound => passes (steers.child_of_rigid owned bound rfl)⟩
  | alt tag children ih =>
      rw [SpellsUnless, generate]
      have onwards (id : Nat) (turn : g.route.childAt? tag.id = some id) :
          ∃ c ∈ children, c.id = id ∧ g.Bound c := (steers.onwards _ owned id turn).2
      refine (ensures_branch (hp.sound _ owned) onwards).bind ?_
      rintro _ ⟨i, rfl, h, passes⟩
      have listed := List.getElem_mem h
      simp only [generateAt_eq, List.getElem?_eq_getElem h]
      refine (ih _ listed (inside owned listed)).mono ?_
      rintro w ⟨hits, spelled, through⟩
      refine ⟨hits, Node.derivesAmong_iff.2 ⟨_, listed, spelled⟩, fun bound => ?_⟩
      exact through (passes (steers.turn_of_rigid owned bound rfl))
  | group tag body ih | capture tag index name body ih =>
      refine (ih (inside owned (List.mem_singleton_self body))).mono ?_
      rintro w ⟨hits, spelled, passes⟩
      refine ⟨hits, spelled, fun bound => passes ?_⟩
      simpa [Node.children] using steers.child_of_rigid owned bound rfl
  | backref tag target index body ih =>
      obtain ⟨c, hc, group⟩ := hp.closed _ owned ⟨index, target, body⟩ rfl
      refine (ih (inside hc (Node.body_mem_children group))).mono ?_
      rintro w ⟨hits, spelled, -⟩
      refine ⟨hits, spelled, fun bound => ?_⟩
      simpa [Node.children] using steers.child_of_rigid owned bound rfl

theorem Steers.spells {p : Pattern} (hp : p.WellFormed) (steers : g.Steers p.root) {n : Node}
    (owned : n ∈ p.root.nodes) : g.Spells n :=
  (steers.spellsUnless hp owned).weaken fun _ ⟨_, _, _, _, _, same⟩ => ⟨_, same⟩

end Generator

/-- What is generated to invalidate an eligible node is spelled by a derivation in which
that node occurs and deviates wherever it does, while everything else conforms. -/
theorem Pattern.derives_of_invalidating {source : String} {p : Pattern}
    (parsed : parse source = .ok p) {e : Node} (eligible : e ∈ p.eligible) (slack : Nat)
    (random : Source) {w : List Char}
    (generated :
      (((Generator.invalidating slack p.root e.id).generate p.root).run.run random).1 = .ok w) :
    ∃ hits, 0 < hits ∧ p.root.Derives slack (some e.id) w hits := by
  have hp := wellFormed_parse parsed
  obtain ⟨steers, bound⟩ := Generator.Steers.of_eligible slack hp.distinct eligible
  obtain ⟨hits, derived, passes⟩ := (steers.spells hp p.root.self_mem_nodes).of_ok generated
  exact ⟨hits, passes bound, derived⟩

theorem Pattern.derives_of_invalidating_digit :
    ∃ p, parse "x\\i[0-9]" = .ok p ∧ ∃ e ∈ p.eligible,
      ∃ hits, 0 < hits ∧ p.root.Derives 10 (some e.id) ['x', '['] hits :=
  ⟨_, rfl, _, List.mem_singleton_self _,
    derives_of_invalidating (rfl : parse "x\\i[0-9]" = .ok _) (List.mem_singleton_self _) 10
      (.ofSeed 7) rfl⟩

end PatternSampler
