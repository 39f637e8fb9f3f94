import Mathlib.Logic.Function.Basic
import PatternSampler.Generation.Basic
import PatternSampler.Proofs.Loop
import PatternSampler.Proofs.Pattern.Ancestors

/-!
# Reserving the way to a node

A generator that is to invalidate a node climbs from it to the root, from parent to parent, and
reserves in each of them the child that it comes from.  The climb is the route to the node read
backwards: it notes the ancestors of the node, each with the child that leads to the node, and
nothing else.
-/

namespace PatternSampler

structure ClimbState where
  id : Nat
  /-- The child that is reserved in the node of an identity. -/
  reserved : Nat → Option Nat
  /-- How many parents have been climbed to. -/
  height : Nat

def climbing (p : Pattern) : Loop ClimbState where
  isLast s := (p.parent? s.id).isNone
  onward s := match p.parent? s.id with
    | some parent => ⟨parent, Function.update s.reserved parent (some s.id), s.height + 1⟩
    | none => s

theorem Route.childAt?_concat (route : Route) (ancestor child id : Nat) :
    Route.childAt? (route ++ [⟨ancestor, child⟩]) id =
      (route.childAt? id).or (if ancestor = id then some child else none) := by
  simp only [childAt?, List.find?_append, List.find?_singleton, beq_iff_eq]
  cases route.find? (·.ancestor == id) with
  | none => split <;> rfl
  | some turn => rfl

namespace Pattern

/-- The look-up gives for the identity of each ancestor of the node the child that leads to the
node, and no other identity has a child. -/
structure Reserves (p : Pattern) (n : Node) (look : Nat → Option Nat) : Prop where
  ancestor : ∀ m ∈ p.ancestors n, ∃ c ∈ m.children, n ∈ c.nodes ∧ look m.id = some c.id
  other : ∀ id, (∀ m ∈ p.ancestors n, m.id ≠ id) → look id = none

variable {p : Pattern} {c m n : Node} {look : Nat → Option Nat}

theorem Reserves.of_not_mem (h : p.Reserves n look) (hp : p.WellFormed) (hm : m ∈ p.root.nodes)
    (apart : m ∉ p.ancestors n) : look m.id = none := by
  refine h.other m.id fun k hk same => apart ?_
  exact hp.distinct.eq_of_id_eq hk.1 hm same ▸ hk

theorem Reserves.eq_some_iff (h : p.Reserves n look) (hp : p.WellFormed) (hm : m ∈ p.root.nodes)
    (id : Nat) : look m.id = some id ↔
      m ∈ p.ancestors n ∧ ∃ c ∈ m.children, c.id = id ∧ n ∈ c.nodes := by
  constructor
  · intro found
    by_cases above : m ∈ p.ancestors n
    · obtain ⟨c, child, below, reserved⟩ := h.ancestor m above
      exact ⟨above, c, child, Option.some.inj (reserved.symm.trans found), below⟩
    · cases (h.of_not_mem hp hm above).symm.trans found
  · rintro ⟨above, c, child, rfl, below⟩
    obtain ⟨d, hd, below', reserved⟩ := h.ancestor m above
    rw [reserved, (hp.distinct.of_mem hm).child_eq hd child below' below rfl]

namespace WellFormed

theorem reserves_root (hp : p.WellFormed) : p.Reserves p.root (Route.childAt? []) where
  ancestor m hm := by simp [hp.ancestors_root] at hm
  other _ _ := rfl

theorem reserves_child (hp : p.WellFormed) (hm : m ∈ p.root.nodes) (child : c ∈ m.children)
    {route : Route} (h : p.Reserves m route.childAt?) :
    p.Reserves c (Route.childAt? (route ++ [⟨m.id, c.id⟩])) where
  ancestor k hk := by
    rw [hp.ancestors_child hm child] at hk
    rcases hk with rfl | hk
    · have free : route.childAt? k.id = none := h.of_not_mem hp hm fun above => above.2.1 rfl
      refine ⟨c, child, c.self_mem_nodes, ?_⟩
      rw [Route.childAt?_concat, free, if_pos rfl, Option.none_or]
    · obtain ⟨d, hd, below, reserved⟩ := h.ancestor k hk
      refine ⟨d, hd, Node.child_mem_nodes child below, ?_⟩
      rw [Route.childAt?_concat, reserved, Option.some_or]
  other id off := by
    rw [hp.ancestors_child hm child] at off
    have free := h.other id fun k hk => off k (.inr hk)
    rw [Route.childAt?_concat, free, if_neg (off m (.inl rfl)), Option.none_or]

theorem climb_child (hp : p.WellFormed) (hm : m ∈ p.root.nodes) (child : c ∈ m.children)
    {passes height : Nat} {last : ClimbState} {before : Nat → Option Nat}
    (others : (climbing p).LeavesIn passes
      ⟨m.id, Function.update before m.id (some c.id), height + 1⟩ last) :
    (climbing p).LeavesIn (passes + 1) ⟨c.id, before, height⟩ last := by
  have parent := hp.parent?_child hm child
  refine .pass (by simp [climbing, parent]) ?_
  simpa only [climbing, parent] using others

theorem exists_climb (hp : p.WellFormed) (owned : n ∈ p.root.nodes) :
    ∃ route, p.root.routeTo? n.id = some route ∧ p.Reserves n route.childAt? ∧
      (p.ancestors n).encard = route.length ∧
      ∀ before height, (climbing p).LeavesIn (route.length + 1) ⟨n.id, before, height⟩
        ⟨p.root.id, fun id => (route.childAt? id).or (before id), height + route.length⟩ := by
  induction owned using Node.inductFromRoot with
  | start =>
      refine ⟨[], ?_, hp.reserves_root, ?_, fun before height => .leave ?_⟩
      · rw [Node.routeTo?_eq, if_pos rfl]
      · rw [hp.ancestors_root, Set.encard_empty, List.length_nil, Nat.cast_zero]
      · simp [climbing, hp.parent?_root]
  | child m hm ih c child =>
      obtain ⟨route, found, reserves, count, climb⟩ := ih
      refine ⟨route ++ [⟨m.id, c.id⟩], hp.distinct.routeTo?_child hm child found,
        hp.reserves_child hm child reserves, ?_, fun before height => ?_⟩
      · rw [hp.ancestors_child hm child, Set.encard_insert_of_notMem fun above => above.2.1 rfl,
          count, List.length_append, List.length_singleton, Nat.cast_add, Nat.cast_one]
      · have noted : (fun id => (Route.childAt? (route ++ [⟨m.id, c.id⟩]) id).or (before id)) =
            fun id => (route.childAt? id).or (Function.update before m.id (some c.id) id) := by
          funext id
          rw [Route.childAt?_concat, Option.or_assoc]
          by_cases here : m.id = id
          · simp [here]
          · simp [here, Function.update_of_ne (Ne.symm here)]
        rw [noted, List.length_append, List.length_singleton, ← Nat.add_assoc height,
          Nat.add_right_comm height]
        exact hp.climb_child hm child (climb _ _)

end WellFormed

/-- A generator that has been told to invalidate a node has climbed from it to the root in as many
steps as the node has ancestors.  It has reserved in each of them the child that leads to the
node, in the root unless that is the node itself, and in nothing else: not in the node and not in
a back reference. -/
theorem reserved_of_parsed {source : String} {p : Pattern}
    (parsed : parse source = .ok p ∨ parseUnmarked source = .ok p) {n : Node}
    (owned : n ∈ p.root.nodes) (slack : Nat) :
    ∃ route, Generator.invalidating slack p.root n.id = ⟨slack, some n.id, route⟩ ∧
      (climbing p).LeavesIn (route.length + 1)
        ⟨n.id, (Generator.conforming slack).route.childAt?, 0⟩
        ⟨p.root.id, route.childAt?, route.length⟩ ∧
      (p.ancestors n).encard = route.length ∧
      (∀ m ∈ p.root.nodes, ∀ id, route.childAt? m.id = some id ↔
        m ∈ p.ancestors n ∧ ∃ c ∈ m.children, c.id = id ∧ n ∈ c.nodes) ∧
      (∀ id, (∀ m ∈ p.ancestors n, m.id ≠ id) → route.childAt? id = none) ∧
      route.childAt? n.id = none ∧
      ((route.childAt? p.root.id).isSome = true ↔ n ≠ p.root) ∧
      ∀ tag target index body, .backref tag target index body ∈ p.root.nodes →
        route.childAt? tag.id = none := by
  have hp : p.WellFormed := parsed.elim wellFormed_parse wellFormed_parseUnmarked
  obtain ⟨route, found, reserves, count, climb⟩ := hp.exists_climb owned
  refine ⟨route, ?_, ?_, count, fun m hm => reserves.eq_some_iff hp hm, reserves.other,
    ?_, ?_, ?_⟩
  · rw [Generator.invalidating, found, Option.getD_some]
  · have fresh (id : Nat) : (Generator.conforming slack).route.childAt? id = none := rfl
    simpa only [fresh, Option.or_none, Nat.zero_add] using
      climb (Generator.conforming slack).route.childAt? 0
  · exact reserves.of_not_mem hp owned fun above => above.2.1 rfl
  · constructor
    · intro some same
      have free := reserves.of_not_mem hp p.root.self_mem_nodes fun above => above.2.1 same.symm
      rw [free] at some
      cases some
    · intro below
      obtain ⟨c, -, -, reserved⟩ :=
        reserves.ancestor p.root ⟨p.root.self_mem_nodes, below.symm, owned⟩
      rw [reserved, Option.isSome_some]
  · intro tag target index body referring
    refine reserves.of_not_mem hp referring fun above => ?_
    obtain ⟨c, child, -⟩ := reserves.ancestor _ above
    simp [Node.children] at child

theorem reserved_of_parsed_nested :
    ∃ p, parse "a(b|(c|\\id))" = .ok p ∧ ∃ e ∈ p.eligible, ∃ route,
      Generator.invalidating 10 p.root e.id = ⟨10, some e.id, route⟩ ∧ route.length = 5 ∧
        (p.ancestors e).encard = 5 ∧ (route.childAt? p.root.id).isSome = true := by
  have heights : (parse "a(b|(c|\\id))").map (fun p => p.eligible.map fun e =>
      (Generator.invalidating 10 p.root e.id).route.length) = .ok [5] := by decide +kernel
  cases parsed : parse "a(b|(c|\\id))" with
  | error _ => rw [parsed] at heights; cases heights
  | ok p =>
      rw [parsed] at heights
      obtain ⟨e, only, height⟩ := List.map_eq_singleton_iff.1 (Except.ok.inj heights)
      have eligible : e ∈ p.eligible := only ▸ List.mem_singleton_self e
      obtain ⟨route, made, -, count, -, -, -, root, -⟩ :=
        reserved_of_parsed (.inl parsed) (Node.mem_nodes_of_eligible eligible) 10
      rw [made] at height
      have five : (p.ancestors e).encard = 5 := by rw [count, height, Nat.cast_ofNat]
      refine ⟨p, rfl, e, eligible, route, made, height, five, root.2 fun same => ?_⟩
      rw [same, (wellFormed_parse parsed).ancestors_root, Set.encard_empty] at five
      cases five

end Pattern

end PatternSampler
