import PatternSampler.Proofs.Phrase.Places

/-!
# Enclosing a subtree

One more group is put around the subtree of a tree that the node `k` is the root of.  The group
is completed right after that node, so it gets the next identity, and all nodes behind it are
numbered one higher.  This is what a phrase is numbered to when one of its parts is written in
a group.
-/

namespace PatternSampler

/-- The identities above `k` make room for one more. -/
def raiseAbove (k id : Nat) : Nat := if k < id then id + 1 else id

theorem raiseAbove_of_le {k id : Nat} (h : id ≤ k) : raiseAbove k id = id :=
  if_neg (Nat.not_lt.2 h)

theorem raiseAbove_of_lt {k id : Nat} (h : k < id) : raiseAbove k id = id + 1 := if_pos h

theorem raiseAbove_succ {k id : Nat} (other : id ≠ k) :
    raiseAbove k (id + 1) = raiseAbove k id + 1 := by
  unfold raiseAbove
  split <;> split <;> omega

theorem raiseAbove_inj {k id id' : Nat} : raiseAbove k id = raiseAbove k id' ↔ id = id' := by
  unfold raiseAbove
  split <;> split <;> omega

theorem raiseAbove_eq_self_iff {k id : Nat} : raiseAbove k id = k ↔ id = k := by
  unfold raiseAbove
  split <;> omega

def Tag.raise (k : Nat) (tag : Tag) : Tag := { tag with id := raiseAbove k tag.id }

namespace Node

def around (k : Nat) (n : Node) : Node := if n.id = k then .group ⟨k + 1, n.marked⟩ n else n

mutual

def raised (k : Nat) : Node → Node
  | text tag chars => text (tag.raise k) chars
  | set tag members => set (tag.raise k) members
  | rep tag quantifier body => rep (tag.raise k) quantifier (around k (raised k body))
  | seq tag children => seq (tag.raise k) (enclosedEach k children)
  | alt tag children => alt (tag.raise k) (enclosedEach k children)
  | group tag body => group (tag.raise k) (around k (raised k body))
  | capture tag index name body => capture (tag.raise k) index name (around k (raised k body))
  | backref tag target index body =>
      backref (tag.raise k) (raiseAbove k target) index (around k (raised k body))

def enclosedEach (k : Nat) : List Node → List Node
  | [] => []
  | n :: rest => around k (raised k n) :: enclosedEach k rest

end

/-- The tree with one more group, around the node `k`. -/
def enclosed (k : Nat) (n : Node) : Node := around k (raised k n)

variable {k : Nat}

theorem enclosedEach_eq (ns : List Node) : enclosedEach k ns = ns.map (enclosed k) := by
  induction ns with
  | nil => rfl
  | cons n rest ih => rw [enclosedEach, ih, List.map_cons, enclosed]

theorem tag_raised (n : Node) : (n.raised k).tag = n.tag.raise k := by
  cases n <;> rfl

@[simp] theorem id_raised (n : Node) : (n.raised k).id = raiseAbove k n.id := by
  rw [id, tag_raised, id, Tag.raise]

@[simp] theorem marked_raised (n : Node) : (n.raised k).marked = n.marked := by
  rw [marked, tag_raised, marked, Tag.raise]

theorem enclosed_of_ne {n : Node} (other : n.id ≠ k) : n.enclosed k = n.raised k := by
  rw [enclosed, around, if_neg (by rwa [id_raised, raiseAbove_eq_self_iff])]

theorem enclosed_of_eq {n : Node} (same : n.id = k) :
    n.enclosed k = .group ⟨k + 1, n.marked⟩ (n.raised k) := by
  rw [enclosed, around, if_pos (by rwa [id_raised, raiseAbove_eq_self_iff]), marked_raised]

theorem children_raised (n : Node) : (n.raised k).children = n.children.map (enclosed k) := by
  cases n <;> simp [raised, children, enclosedEach_eq, enclosed]

end Node

namespace Numbering

variable {k : Nat} {s : Numbering} {marked : Bool} {ns : List Node}

def enclosed (k : Nat) (s : Numbering) : Numbering where
  next := raiseAbove k s.next
  groups := s.groups.map fun g => ⟨g.index, raiseAbove k g.id, g.body.enclosed k⟩

theorem enclosed_start (k : Nat) : start.enclosed k = start := by
  rw [enclosed, start, raiseAbove_of_le (Nat.zero_le k)]
  rfl

theorem group?_enclosed (k : Nat) (s : Numbering) (index : Nat) : (s.enclosed k).group? index =
    (s.group? index).map fun g => ⟨g.index, raiseAbove k g.id, g.body.enclosed k⟩ := by
  rw [group?, group?, enclosed, List.find?_map]
  rfl

theorem node_enclosed (other : s.next ≠ k) (make make' : Tag → Node)
    (raised : ∀ tag, (make tag).raised k = make' (tag.raise k))
    (tagged : ∀ tag, (make tag).id = tag.id) :
    (s.enclosed k).node marked make' =
      ((s.node marked make).1.enclosed k, (s.node marked make).2.enclosed k) := by
  have first : (make ⟨s.next, marked⟩).enclosed k = make' ⟨raiseAbove k s.next, marked⟩ := by
    rw [Node.enclosed_of_ne (by rwa [tagged]), raised]
    rfl
  simp only [node, first]
  rw [enclosed, enclosed, raiseAbove_succ other]

theorem capture_enclosed (other : s.next ≠ k) (index : Nat) (name : Option String) (body : Node) :
    (s.enclosed k).capture marked index name (body.enclosed k) =
      ((s.capture marked index name body).1.enclosed k,
        (s.capture marked index name body).2.enclosed k) := by
  refine Eq.trans ?_ (node_enclosed (s := ⟨s.next, s.groups ++ [⟨index, s.next, body⟩]⟩) other
    (.capture · index name body) (.capture · index name (body.enclosed k)) (fun _ => rfl)
    fun _ => rfl)
  simp [capture, enclosed]

theorem raised_joint (joint : Joint) (tag : Tag) (ns : List Node) :
    (joint.node tag ns).raised k = joint.node (tag.raise k) (ns.map (Node.enclosed k)) := by
  cases joint <;> cases ns <;> simp [Joint.node, Node.raised, Node.enclosedEach_eq]

theorem join_enclosed {joint : Joint} (other : ns.length ≠ 1 → s.next ≠ k) :
    (s.enclosed k).join marked joint (ns.map (Node.enclosed k)) =
      ((s.join marked joint ns).1.enclosed k, (s.join marked joint ns).2.enclosed k) := by
  have several (other : s.next ≠ k) :
      (s.enclosed k).node marked (joint.node · (ns.map (Node.enclosed k))) =
        ((s.node marked (joint.node · ns)).1.enclosed k,
          (s.node marked (joint.node · ns)).2.enclosed k) :=
    node_enclosed other (joint.node · ns) _ (fun tag => raised_joint joint tag ns)
      fun tag => congrArg Tag.id (joint.tag_node tag ns)
  match ns with
  | [n] => rfl
  | [] | n :: m :: rest => exact several (other (by simp))

theorem mem_nodes_join (s : Numbering) (marked : Bool) (joint : Joint) {m n : Node} (part : n ∈ ns)
    (owned : m ∈ n.nodes) : m ∈ (s.join marked joint ns).1.nodes := by
  rcases s.join_cases marked joint ns with ⟨n, rfl, join⟩ | ⟨-, join⟩ <;> rw [join]
  · exact List.mem_singleton.1 part ▸ owned
  · exact Node.mem_nodes_of_child (by simpa [node] using part) owned

end Numbering

namespace Phrase

variable {k : Nat} {s : Numbering}

theorem next_number (p : Phrase) (marked : Bool) (s : Numbering) :
    (p.number marked s).2.next = s.next + p.count := by
  rw [(p.number_adds marked s).next, ← List.length_map Node.stamp, p.stamps_number, length_stamps]

theorem next_numberEach (ps : List Phrase) (marked : Bool) (s : Numbering) :
    (numberEach marked ps s).2.next = s.next + countIn ps := by
  induction ps generalizing s with
  | nil => rfl
  | cons p ps ih => rw [numberEach, ih, next_number, countIn_cons, Nat.add_assoc]

theorem mem_numberEach (p : Phrase) (before after : List Phrase) (marked : Bool) (s : Numbering) :
    (p.number marked (numberEach marked before s).2).1 ∈
      (numberEach marked (before ++ p :: after) s).1 := by
  simp [numberEach_append, numberEach]

theorem numberEach_enclosed {ps : List Phrase}
    (ih : ∀ p ∈ ps, ∀ (marked : Bool) (s : Numbering), k < s.next ∨ s.next + p.count ≤ k →
      p.number marked (s.enclosed k) =
        ((p.number marked s).1.enclosed k, (p.number marked s).2.enclosed k))
    (marked : Bool) (s : Numbering) (outside : k < s.next ∨ s.next + countIn ps ≤ k) :
    numberEach marked ps (s.enclosed k) =
      ((numberEach marked ps s).1.map (Node.enclosed k),
        (numberEach marked ps s).2.enclosed k) := by
  induction ps generalizing s with
  | nil => rfl
  | cons p ps ihrest =>
      obtain ⟨hp, hrest⟩ := List.forall_mem_cons.1 ih
      rw [countIn_cons] at outside
      have next := p.next_number marked s
      have first := hp marked s (by omega)
      have others := ihrest hrest (p.number marked s).2 (by omega)
      simp only [numberEach, first, others, List.map_cons]

theorem number_enclosed (p : Phrase) (marked : Bool) (s : Numbering)
    (outside : k < s.next ∨ s.next + p.count ≤ k) : p.number marked (s.enclosed k) =
      ((p.number marked s).1.enclosed k, (p.number marked s).2.enclosed k) := by
  induction p generalizing marked s with
  | text chars =>
      rw [count_text] at outside
      exact Numbering.node_enclosed (by omega) (.text · chars) (.text · chars) (fun _ => rfl)
        fun _ => rfl
  | set members =>
      rw [count_set] at outside
      exact Numbering.node_enclosed (by omega) (.set · members) (.set · members) (fun _ => rfl)
        fun _ => rfl
  | group body ih =>
      rw [count_group] at outside
      have next := body.next_number marked s
      simp only [number, ih marked s (by omega)]
      exact Numbering.node_enclosed (by omega) (.group · (body.number marked s).1) _
        (fun _ => rfl) fun _ => rfl
  | capture index name body ih =>
      rw [count_capture] at outside
      have next := body.next_number marked s
      simp only [number, ih marked s (by omega)]
      exact Numbering.capture_enclosed (by omega) index name _
  | reference index =>
      rw [count_reference] at outside
      simp only [number, Numbering.group?_enclosed]
      cases s.group? index with
      | none =>
          exact Numbering.node_enclosed (by omega) (.text · []) (.text · []) (fun _ => rfl)
            fun _ => rfl
      | some g =>
          exact Numbering.node_enclosed (by omega) (.backref · g.id index g.body) _ (fun _ => rfl)
            fun _ => rfl
  | rep own quantifier body ih =>
      rw [count_rep] at outside
      have next := body.next_number marked s
      simp only [number, ih marked s (by omega)]
      exact Numbering.node_enclosed (by omega) (.rep · quantifier (body.number marked s).1) _
        (fun _ => rfl) fun _ => rfl
  | marked piece ih => exact ih true s (count_marked piece ▸ outside)
  | branch ps ih | choice ps ih =>
      simp only [count_branch, count_choice] at outside
      have next := next_numberEach ps marked s
      simp only [number, numberEach_enclosed ih marked s (by omega)]
      refine Numbering.join_enclosed fun several => ?_
      rw [length_numberEach] at several
      have joined := length_joint false several
      omega

theorem numberEach_outside (ps : List Phrase) (marked : Bool) {s : Numbering}
    (outside : k < s.next ∨ s.next + countIn ps ≤ k) : numberEach marked ps (s.enclosed k) =
      ((numberEach marked ps s).1.map (Node.enclosed k), (numberEach marked ps s).2.enclosed k) :=
  numberEach_enclosed (fun p _ => p.number_enclosed) marked s outside

theorem numberEach_fixed (ps : List Phrase) (marked : Bool) {s : Numbering}
    (fixed : s.enclosed k = s) (below : s.next + countIn ps ≤ k) :
    (numberEach marked ps s).1.map (Node.enclosed k) = (numberEach marked ps s).1 ∧
      (numberEach marked ps s).2.enclosed k = (numberEach marked ps s).2 := by
  have numbered := numberEach_outside ps marked (.inr below)
  rw [fixed] at numbered
  exact ⟨(congrArg Prod.fst numbered).symm, (congrArg Prod.snd numbered).symm⟩

def sequence (pieces : List Phrase) : Phrase := choice [branch pieces]

variable {pieces : List Phrase}

theorem count_sequence (several : 2 ≤ pieces.length) :
    (sequence pieces).count = countIn pieces + 1 := by
  have joined := length_joint false (Nat.ne_of_gt several)
  rw [sequence, count_choice, countIn_cons, count_branch, joined]
  rfl

theorem number_group_sequence (several : 2 ≤ pieces.length) (marked : Bool) {s : Numbering}
    (fixed : s.enclosed k = s) (last : k = s.next + countIn pieces) :
    (group (sequence pieces)).number marked s =
      (((sequence pieces).number marked s).1.enclosed k,
        ((sequence pieces).number marked s).2.enclosed k) := by
  obtain ⟨nodes, groups⟩ := numberEach_fixed pieces marked fixed (Nat.le_of_eq last.symm)
  have next := next_numberEach pieces marked s
  have length := length_numberEach marked pieces s
  simp only [sequence, number, numberEach]
  generalize numberEach marked pieces s = numbered at nodes groups next length ⊢
  obtain ⟨ns, t⟩ := numbered
  rcases ns with _ | ⟨n, _ | ⟨m, rest⟩⟩
  case nil | cons.nil =>
      simp only [List.length_nil, List.length_singleton] at length
      omega
  case cons.cons =>
      simp only at nodes groups next
      rw [← last] at next
      have tag : Tag.raise k ⟨k, marked⟩ = ⟨k, marked⟩ := by
        rw [Tag.raise, raiseAbove_of_le (Nat.le_refl k)]
      have sequence : (Node.seq ⟨k, marked⟩ (n :: m :: rest)).enclosed k =
          .group ⟨k + 1, marked⟩ (.seq ⟨k, marked⟩ (n :: m :: rest)) := by
        have root : (Node.seq ⟨k, marked⟩ (n :: m :: rest)).id = k := rfl
        rw [Node.enclosed_of_eq root, Node.raised, Node.enclosedEach_eq, nodes, tag]
        rfl
      have kept : (⟨k + 1, t.groups⟩ : Numbering).enclosed k = ⟨k + 1 + 1, t.groups⟩ := by
        rw [Numbering.enclosed, raiseAbove_of_lt (Nat.lt_succ_self k)]
        exact congrArg (Numbering.mk (k + 1 + 1)) (congrArg Numbering.groups groups)
      simp only [Numbering.join, Joint.node, Numbering.node, next, sequence, kept]

theorem Place.le_count {n : Nat} {F : Phrase → Phrase} (h : Place n F) (p : Phrase) :
    n + p.count ≤ (F p).count := by
  induction h with
  | here => simp
  | group h ih | capture _ _ h ih | rep _ _ h ih | marked h ih =>
      simp only [count_group, count_capture, count_rep, count_marked]
      omega
  | branch before after h ih | choice before after h ih =>
      simp only [count_branch, count_choice, countIn_append, countIn_cons]
      omega

theorem numberEach_replaced (p p' : Phrase) (before after : List Phrase) {marked : Bool}
    {s : Numbering} (fixed : s.enclosed k = s) (behind : s.next + countIn before ≤ k)
    (between : k < s.next + countIn before + p.count)
    (numbered : ∀ {t : Numbering}, t.enclosed k = t → t.next = s.next + countIn before →
      p'.number marked t = ((p.number marked t).1.enclosed k, (p.number marked t).2.enclosed k)) :
    numberEach marked (before ++ p' :: after) s =
      ((numberEach marked (before ++ p :: after) s).1.map (Node.enclosed k),
        (numberEach marked (before ++ p :: after) s).2.enclosed k) ∧
      (numberEach marked (before ++ p :: after) s).2.next ≠ k := by
  obtain ⟨nodes, groups⟩ := numberEach_fixed before marked fixed behind
  have whole := next_numberEach (before ++ p :: after) marked s
  have next := next_numberEach before marked s
  simp only [countIn_append, countIn_cons] at whole
  refine ⟨?_, by omega⟩
  simp only [numberEach_append, numberEach]
  generalize numberEach marked before s = first at nodes groups next ⊢
  have outside : k < (p.number marked first.2).2.next := by
    rw [next_number, next]
    exact between
  have others := numberEach_outside after marked (.inl outside)
  simp only [numbered groups next, others, List.map_append, List.map_cons, nodes]

/-- The sequence in the place is put in a group.  In the tree this encloses its node. -/
theorem Place.number_enclosed {n : Nat} {F : Phrase → Phrase} (h : Place n F)
    (several : 2 ≤ pieces.length) (marked : Bool) {s : Numbering} (fixed : s.enclosed k = s)
    (last : k = s.next + n + countIn pieces) :
    (F (.group (.sequence pieces))).number marked s =
      (((F (.sequence pieces)).number marked s).1.enclosed k,
        ((F (.sequence pieces)).number marked s).2.enclosed k) := by
  have count := count_sequence several
  have behind {n : Nat} {F : Phrase → Phrase} (h : Place n F) (marked : Bool) {s : Numbering}
      (last : k = s.next + n + countIn pieces) :
      ((F (.sequence pieces)).number marked s).2.next ≠ k := by
    have := h.le_count (.sequence pieces)
    rw [next_number]
    omega
  induction h generalizing marked s with
  | here => exact number_group_sequence several marked fixed last
  | @group n F h ih =>
      simp only [number, ih marked fixed last]
      exact Numbering.node_enclosed (behind h marked last) (.group · (number marked (F _) s).1) _
        (fun _ => rfl) fun _ => rfl
  | capture index name h ih =>
      simp only [number, ih marked fixed last]
      exact Numbering.capture_enclosed (behind h marked last) index name _
  | @rep own q n F h ih =>
      simp only [number, ih marked fixed last]
      exact Numbering.node_enclosed (behind h marked last) (.rep · q (number marked (F _) s).1) _
        (fun _ => rfl) fun _ => rfl
  | marked h ih => exact ih true fixed last
  | @branch before after n F h ih | @choice before after n F h ih =>
      have inside := h.le_count (.sequence pieces)
      obtain ⟨numbered, other⟩ := numberEach_replaced (F (.sequence pieces))
        (F (.group (.sequence pieces))) before after fixed (by omega) (by omega)
        fun fixed next => ih marked fixed (by omega)
      simp only [number, numbered]
      exact Numbering.join_enclosed fun _ => other

theorem Place.exists_node {n : Nat} {F : Phrase → Phrase} (h : Place n F) (p : Phrase)
    (marked : Bool) (s : Numbering) : ∃ (inner : Bool) (t : Numbering), t.next = s.next + n ∧
      (p.number inner t).1 ∈ ((F p).number marked s).1.nodes := by
  induction h generalizing marked s with
  | here => exact ⟨marked, s, rfl, Node.self_mem_nodes _⟩
  | group h ih | capture _ _ h ih | rep _ _ h ih =>
      obtain ⟨inner, t, next, owned⟩ := ih marked s
      exact ⟨inner, t, next, Node.mem_nodes_of_child (List.mem_singleton_self _) owned⟩
  | marked h ih => exact ih true s
  | @branch before after n F h ih | @choice before after n F h ih =>
      obtain ⟨inner, t, next, owned⟩ := ih marked (numberEach marked before s).2
      rw [next_numberEach, Nat.add_assoc] at next
      have part := mem_numberEach (F p) before after marked s
      exact ⟨inner, t, next, Numbering.mem_nodes_join _ _ _ part owned⟩

end Phrase

end PatternSampler
