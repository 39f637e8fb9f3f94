import PatternSampler.Phrase.Numbering
import PatternSampler.Proofs.Pattern.Tree
import PatternSampler.Proofs.Phrase.WellFormed

/-!
# Numbering

Numbering a phrase adds the nodes of its tree, in post-order, to those that have been
numbered before.  Their identities are consecutive, every capturing group among them is
kept, and a back reference means a group that is kept already.
-/

namespace PatternSampler

namespace Node

def group? : Node → Option NumberedGroup
  | .capture tag index _ body => some ⟨index, tag.id, body⟩
  | _ => none

theorem body_mem_children {n : Node} {g : NumberedGroup} (h : n.group? = some g) :
    g.body ∈ n.children := by
  cases n with
  | capture tag index name body =>
      cases h
      exact List.mem_singleton_self body
  | _ => cases h

theorem id_of_group? {n : Node} {g : NumberedGroup} (h : n.group? = some g) : g.id = n.id := by
  cases n with
  | capture tag index name body =>
      cases h
      rfl
  | _ => cases h

def referred? : Node → Option NumberedGroup
  | .backref _ target index body => some ⟨index, target, body⟩
  | _ => none

/-- The class or the quantifier of the node itself is well-formed, and an alternative
has branches. -/
def WellFormed : Node → Prop
  | .set _ members => members.WellFormed
  | .rep _ quantifier _ => quantifier.WellFormed
  | .alt _ children => children ≠ []
  | _ => True

/-- What numbering makes sure of at the node itself: only several parts need a node that
holds them together, and a reference means a group that is completed before it. -/
inductive Orderly : Node → Prop
  | text (tag : Tag) (chars : List Char) : Orderly (.text tag chars)
  | set (tag : Tag) {members : CharClass} (h : members.WellFormed) : Orderly (.set tag members)
  | rep (tag : Tag) {quantifier : Quantifier} (body : Node) (h : quantifier.WellFormed) :
      Orderly (.rep tag quantifier body)
  | seq (tag : Tag) {children : List Node} (several : 2 ≤ children.length) :
      Orderly (.seq tag children)
  | alt (tag : Tag) {children : List Node} (several : 2 ≤ children.length) :
      Orderly (.alt tag children)
  | group (tag : Tag) (body : Node) : Orderly (.group tag body)
  | capture (tag : Tag) (index : Nat) (name : Option String) (body : Node) :
      Orderly (.capture tag index name body)
  | backref {tag : Tag} {target : Nat} (index : Nat) (body : Node) (earlier : target < tag.id) :
      Orderly (.backref tag target index body)

theorem Orderly.wellFormed {n : Node} (h : n.Orderly) : n.WellFormed := by
  cases h with
  | set _ h | rep _ _ h => exact h
  | alt _ several => exact List.ne_nil_of_length_pos (by omega)
  | _ => trivial

def indexes (n : Node) : List Nat := (n.nodes.filterMap group?).map (·.index)

theorem indexes_eq (n : Node) :
    n.indexes = n.children.flatMap indexes ++ (n.group?.map (·.index)).toList := by
  have append (ns : List Node) : ((ns.flatMap nodes).filterMap group?).map (·.index) =
      ns.flatMap indexes := by
    induction ns with
    | nil => rfl
    | cons m rest ih => simp [ih, indexes]
  rw [indexes, nodes_eq, List.filterMap_append, List.map_append, append]
  cases h : n.group? <;> simp [h]

end Node

namespace Joint

variable (joint : Joint) (tag : Tag) (ns : List Node)

@[simp] theorem tag_node : (joint.node tag ns).tag = tag := by
  cases joint <;> cases ns <;> rfl

@[simp] theorem children_node : (joint.node tag ns).children = ns := by
  cases joint <;> cases ns <;> rfl

@[simp] theorem group?_node : (joint.node tag ns).group? = none := by
  cases joint <;> cases ns <;> rfl

@[simp] theorem referred?_node : (joint.node tag ns).referred? = none := by
  cases joint <;> cases ns <;> rfl

end Joint

namespace Numbering

theorem join_cases (s : Numbering) (marked : Bool) (joint : Joint) (ns : List Node) :
    (∃ n, ns = [n] ∧ s.join marked joint ns = (n, s)) ∨
      ns.length ≠ 1 ∧ s.join marked joint ns = s.node marked (joint.node · ns) := by
  match ns with
  | [n] => exact .inl ⟨n, rfl, rfl⟩
  | [] | n :: m :: rest => exact .inr ⟨by simp, rfl⟩

theorem forall_nodes_join {motive : Node → Prop} {s : Numbering} {marked : Bool} {joint : Joint}
    {ns : List Node} (own : ns.length ≠ 1 → ∀ tag, motive (joint.node tag ns))
    (parts : ∀ n ∈ ns, ∀ m ∈ n.nodes, motive m) :
    ∀ m ∈ (s.join marked joint ns).1.nodes, motive m := by
  rcases s.join_cases marked joint ns with ⟨n, rfl, join⟩ | ⟨several, join⟩ <;> rw [join]
  · exact List.forall_mem_singleton.1 parts
  · exact Node.forall_mem_nodes.2 ⟨own several _, by simpa [node] using parts⟩

/-- `ns` are the nodes that are numbered between two states, in that order. -/
structure Adds (s : Numbering) (ns : List Node) (s' : Numbering) : Prop where
  next : s'.next = s.next + ns.length
  ids : ns.map Node.id = List.range' s.next ns.length
  groups : s'.groups = s.groups ++ ns.filterMap Node.group?
  references : ∀ n ∈ ns, ∀ g ∈ n.referred?, g ∈ s'.groups

theorem Adds.refl (s : Numbering) : s.Adds [] s where
  next := rfl
  ids := rfl
  groups := by simp
  references := by simp

theorem Adds.trans {s t u : Numbering} {ms ns : List Node} (first : s.Adds ms t)
    (second : t.Adds ns u) : s.Adds (ms ++ ns) u where
  next := by simp [second.next, first.next, Nat.add_assoc]
  ids := by
    rw [List.map_append, first.ids, second.ids, first.next, List.length_append,
      List.range'_append_1]
  groups := by simp [second.groups, first.groups]
  references n hn g hg := by
    rcases List.mem_append.1 hn with hn | hn
    · rw [second.groups]
      exact List.mem_append_left _ (first.references n hn g hg)
    · exact second.references n hn g hg

theorem Adds.node {s t : Numbering} {children : List Node}
    (h : s.Adds (children.flatMap Node.nodes) t) (marked : Bool) (make : Tag → Node)
    (tagged : ∀ tag, (make tag).id = tag.id) (owns : ∀ tag, (make tag).children = children)
    (plain : ∀ tag, (make tag).group? = none)
    (known : ∀ tag, ∀ g ∈ (make tag).referred?, g ∈ t.groups) :
    s.Adds (t.node marked make).1.nodes (t.node marked make).2 := by
  rw [Node.nodes_eq, Numbering.node, owns]
  refine h.trans ⟨rfl, ?_, ?_, ?_⟩
  · simp [tagged]
  · simp [plain]
  · simpa using known _

theorem Adds.capture {s t : Numbering} {body : Node} (h : s.Adds body.nodes t) (marked : Bool)
    (index : Nat) (name : Option String) :
    s.Adds (t.capture marked index name body).1.nodes (t.capture marked index name body).2 := by
  rw [Node.nodes_eq, Numbering.capture, Numbering.node, Node.children, List.flatMap_singleton]
  refine h.trans ⟨rfl, ?_, ?_, ?_⟩
  · simp [Node.id, Node.tag]
  · simp [Node.group?]
  · simp [Node.referred?]

theorem Adds.join {s t : Numbering} {ns : List Node} (h : s.Adds (ns.flatMap Node.nodes) t)
    (marked : Bool) (joint : Joint) :
    s.Adds (t.join marked joint ns).1.nodes (t.join marked joint ns).2 := by
  rcases t.join_cases marked joint ns with ⟨n, rfl, join⟩ | ⟨-, join⟩ <;> rw [join]
  · simpa using h
  · exact h.node marked _ (fun _ => by simp [Node.id]) (fun _ => by simp) (fun _ => by simp)
      (by simp)

def Bounded (s : Numbering) : Prop := ∀ g ∈ s.groups, g.id < s.next

theorem bounded_start : start.Bounded := by simp [Bounded, start]

theorem Adds.bounded {s t : Numbering} {ns : List Node} (adds : s.Adds ns t)
    (bounded : s.Bounded) : t.Bounded := by
  intro g hg
  rw [adds.groups, List.mem_append] at hg
  rw [adds.next]
  rcases hg with hg | hg
  · have := bounded g hg
    omega
  · obtain ⟨n, hn, grouped⟩ := List.mem_filterMap.1 hg
    have inside : n.id ∈ List.range' s.next ns.length := adds.ids ▸ List.mem_map_of_mem hn
    have := (List.mem_range'_1.1 inside).2
    rwa [Node.id_of_group? grouped]

theorem of_group? {s : Numbering} {index : Nat} {g : NumberedGroup}
    (h : s.group? index = some g) : g ∈ s.groups ∧ g.index = index :=
  ⟨List.mem_of_find?_eq_some h, by simpa using List.find?_some h⟩

end Numbering

namespace Phrase

theorem numberEach_adds {ps : List Phrase}
    (ih : ∀ p ∈ ps, ∀ (marked : Bool) (s : Numbering),
      s.Adds (p.number marked s).1.nodes (p.number marked s).2)
    (marked : Bool) (s : Numbering) :
    s.Adds ((numberEach marked ps s).1.flatMap Node.nodes) (numberEach marked ps s).2 := by
  induction ps generalizing s with
  | nil => exact .refl s
  | cons p rest ihrest =>
      obtain ⟨hp, hrest⟩ := List.forall_mem_cons.1 ih
      exact (hp marked s).trans (ihrest hrest (number marked p s).2)

theorem number_adds (p : Phrase) (marked : Bool) (s : Numbering) :
    s.Adds (p.number marked s).1.nodes (p.number marked s).2 := by
  have leaf (s : Numbering) : s.Adds (([] : List Node).flatMap Node.nodes) s := .refl s
  have one {s : Numbering} {body : Phrase} (marked : Bool)
      (h : s.Adds (body.number marked s).1.nodes (body.number marked s).2) :
      s.Adds ([(body.number marked s).1].flatMap Node.nodes) (body.number marked s).2 := by
    simpa using h
  induction p generalizing marked s with
  | text chars =>
      exact (leaf s).node marked (.text · chars) (fun _ => rfl) (fun _ => rfl)
        (fun _ => rfl) (by simp [Node.referred?])
  | set members =>
      exact (leaf s).node marked (.set · members) (fun _ => rfl) (fun _ => rfl)
        (fun _ => rfl) (by simp [Node.referred?])
  | group body ih =>
      exact (one marked (ih marked s)).node marked (.group · _) (fun _ => rfl)
        (fun _ => rfl) (fun _ => rfl) (by simp [Node.referred?])
  | capture index name body ih => exact (ih marked s).capture marked index name
  | reference index =>
      simp only [number]
      split
      · rename_i g hg
        obtain ⟨known, rfl⟩ := Numbering.of_group? hg
        exact (leaf s).node marked (.backref · g.id g.index g.body) (fun _ => rfl)
          (fun _ => rfl) (fun _ => rfl) (by simpa [Node.referred?] using fun _ => known)
      · exact (leaf s).node marked (.text · []) (fun _ => rfl) (fun _ => rfl)
          (fun _ => rfl) (by simp [Node.referred?])
  | rep own quantifier body ih =>
      exact (one marked (ih marked s)).node (marked || own) (.rep · quantifier _)
        (fun _ => rfl) (fun _ => rfl) (fun _ => rfl) (by simp [Node.referred?])
  | marked piece ih => exact ih true s
  | branch pieces ih => exact (numberEach_adds ih marked s).join marked .sequence
  | choice branches ih => exact (numberEach_adds ih marked s).join marked .alternative

theorem numberEach_append (ps qs : List Phrase) (marked : Bool) (s : Numbering) :
    numberEach marked (ps ++ qs) s =
      ((numberEach marked ps s).1 ++ (numberEach marked qs (numberEach marked ps s).2).1,
        (numberEach marked qs (numberEach marked ps s).2).2) := by
  induction ps generalizing s with
  | nil => rfl
  | cons p ps ih => simp only [List.cons_append, numberEach, ih]

theorem length_numberEach (marked : Bool) (ps : List Phrase) (s : Numbering) :
    (numberEach marked ps s).1.length = ps.length := by
  induction ps generalizing s with
  | nil => rfl
  | cons p rest ih => simp [numberEach, ih]

theorem forall_mem_numberEach {motive : Node → Prop} {I : Numbering → Prop} {ps : List Phrase}
    (keeps : ∀ (p : Phrase) (marked : Bool) (s : Numbering), I s → I (p.number marked s).2)
    (h : ∀ p ∈ ps, ∀ (marked : Bool) (s : Numbering), I s → motive (p.number marked s).1)
    (marked : Bool) (s : Numbering) (hs : I s) :
    ∀ n ∈ (numberEach marked ps s).1, motive n := by
  induction ps generalizing s with
  | nil => simp [numberEach]
  | cons p rest ih =>
      obtain ⟨hp, hrest⟩ := List.forall_mem_cons.1 h
      exact List.forall_mem_cons.2 ⟨hp marked s hs, ih hrest _ (keeps p marked s hs)⟩

theorem number_bounded (p : Phrase) (marked : Bool) {s : Numbering} (bounded : s.Bounded) :
    (p.number marked s).2.Bounded :=
  (p.number_adds marked s).bounded bounded

theorem number_orderly {p : Phrase} (hp : p.WellFormed) (marked : Bool) (s : Numbering)
    (bounded : s.Bounded) : ∀ n ∈ (p.number marked s).1.nodes, n.Orderly := by
  have leaf {n : Node} (hn : n.Orderly) (owns : n.children = []) : ∀ m ∈ n.nodes, m.Orderly :=
    Node.forall_mem_nodes.2 ⟨hn, by simp [owns]⟩
  have one {n body : Node} (hn : n.Orderly) (owns : n.children = [body])
      (hbody : ∀ m ∈ body.nodes, m.Orderly) : ∀ m ∈ n.nodes, m.Orderly :=
    Node.forall_mem_nodes.2 ⟨hn, by simpa [owns] using hbody⟩
  have each {ps : List Phrase}
      (ih : ∀ p ∈ ps, ∀ (marked : Bool) (s : Numbering), s.Bounded →
        ∀ n ∈ (p.number marked s).1.nodes, n.Orderly)
      (marked : Bool) (s : Numbering) (bounded : s.Bounded) :
      ∀ n ∈ (numberEach marked ps s).1, ∀ m ∈ n.nodes, m.Orderly :=
    forall_mem_numberEach (motive := fun n => ∀ m ∈ n.nodes, m.Orderly)
      (fun p marked _ hs => p.number_bounded marked hs) ih marked s bounded
  induction hp generalizing marked s with
  | text chars => exact leaf (.text _ _) rfl
  | set h => exact leaf (.set _ h) rfl
  | group h ih => exact one (.group _ _) rfl (ih marked s bounded)
  | capture h ih => exact one (.capture _ _ _ _) rfl (ih marked s bounded)
  | reference index =>
      simp only [number]
      split
      · rename_i g known
        have earlier : g.id < s.next := bounded g (Numbering.of_group? known).1
        exact leaf (.backref _ _ earlier) rfl
      · exact leaf (.text _ _) rfl
  | rep hq h ih => exact one (.rep _ _ hq) rfl (ih marked s bounded)
  | marked h ih => exact ih true s bounded
  | @branch pieces h ih =>
      refine Numbering.forall_nodes_join (fun several tag => ?_) (each ih marked s bounded)
      match (numberEach marked pieces s).1, several with
      | [], _ => exact .text tag []
      | _ :: _ :: _, _ => exact .seq tag (by simp)
  | @choice branches some h ih =>
      refine Numbering.forall_nodes_join (fun several tag => .alt tag ?_) (each ih marked s bounded)
      rw [length_numberEach] at several ⊢
      have := List.length_pos_iff.2 some
      omega

theorem indexes_join (t : Numbering) (marked : Bool) (joint : Joint) (ns : List Node) :
    (t.join marked joint ns).1.indexes = ns.flatMap Node.indexes := by
  rcases t.join_cases marked joint ns with ⟨n, rfl, join⟩ | ⟨-, join⟩ <;> rw [join]
  · simp
  · rw [Numbering.node, Node.indexes_eq]
    simp

theorem numberEach_indexes {ps : List Phrase}
    (ih : ∀ p ∈ ps, ∀ (marked : Bool) (s : Numbering), (p.number marked s).1.indexes.Perm p.indexes)
    (marked : Bool) (s : Numbering) :
    ((numberEach marked ps s).1.flatMap Node.indexes).Perm (indexesIn ps) := by
  induction ps generalizing s with
  | nil => exact .refl _
  | cons p rest ihrest =>
      obtain ⟨hp, hrest⟩ := List.forall_mem_cons.1 ih
      exact (hp marked s).append (ihrest hrest _)

theorem number_indexes (p : Phrase) (marked : Bool) (s : Numbering) :
    (p.number marked s).1.indexes.Perm p.indexes := by
  have one {n : Node} (body : Node) (owns : n.children = [body]) (plain : n.group? = none) :
      n.indexes = body.indexes := by
    simp [Node.indexes_eq n, owns, plain]
  induction p generalizing marked s with
  | text | set => exact .refl _
  | group body ih =>
      rw [number, one (number marked body s).1 rfl rfl]
      exact ih marked s
  | capture index name body ih =>
      have inner : ([(number marked body s).1].flatMap Node.indexes).Perm body.indexes := by
        simpa using ih marked s
      rw [Node.indexes_eq]
      exact (List.perm_append_singleton _ _).trans (inner.cons index)
  | reference index =>
      rw [number]
      split <;> exact .refl _
  | rep own quantifier body ih =>
      rw [number, one (number marked body s).1 rfl rfl]
      exact ih marked s
  | marked piece ih => exact ih true s
  | branch parts ih | choice parts ih =>
      rw [number, indexes_join]
      exact numberEach_indexes ih marked s

end Phrase

end PatternSampler
