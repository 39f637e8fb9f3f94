import PatternSampler.Proofs.Matching.Language

/-!
# The language of a phrase

Numbering a phrase keeps its language, and its tree refers to no group if the phrase does
not.  So a text that refers to no group is matched as the language of its phrase says.
-/

namespace PatternSampler

namespace Phrase

mutual

def language : Phrase → Language Char
  | text chars => {chars}
  | set members => members.language
  | group body => language body
  | capture _ _ body => language body
  | reference _ => 1
  | rep _ quantifier body => quantifier.language (language body)
  | marked piece => language piece
  | branch pieces => product pieces
  | choice branches => sum branches

def product : List Phrase → Language Char
  | [] => 1
  | p :: rest => language p * product rest

def sum : List Phrase → Language Char
  | [] => 0
  | p :: rest => language p + sum rest

end

theorem product_eq (ps : List Phrase) : product ps = (ps.map language).prod := by
  induction ps with
  | nil => rfl
  | cons p rest ih => simp [product, ih]

theorem sum_eq (ps : List Phrase) : sum ps = (ps.map language).sum := by
  induction ps with
  | nil => rfl
  | cons p rest ih => simp [sum, ih]

@[simp] theorem language_markedIf (isMarked : Bool) (p : Phrase) :
    (markedIf isMarked p).language = p.language := by
  cases isMarked <;> simp [markedIf, language]

theorem language_unmarked (p : Phrase) : p.unmarked.language = p.language := by
  induction p with
  | text | set | reference => rfl
  | group body ih | capture index name body ih => exact ih
  | rep own quantifier body ih => simp only [unmarked, language, ih]
  | marked piece ih => rw [unmarked, language, ih]
  | branch ps ih =>
      simp only [unmarked, unmarkedEach_eq, language, product_eq, List.map_map]
      exact congrArg List.prod (List.map_congr_left ih)
  | choice ps ih =>
      simp only [unmarked, unmarkedEach_eq, language, sum_eq, List.map_map]
      exact congrArg List.sum (List.map_congr_left ih)

mutual

def references : Phrase → List Nat
  | text _ | set _ => []
  | group body => references body
  | capture _ _ body => references body
  | reference index => [index]
  | rep _ _ body => references body
  | marked piece => references piece
  | branch pieces => referencesIn pieces
  | choice branches => referencesIn branches

def referencesIn : List Phrase → List Nat
  | [] => []
  | p :: rest => references p ++ referencesIn rest

end

theorem referencesIn_eq (ps : List Phrase) : referencesIn ps = ps.flatMap references := by
  induction ps with
  | nil => rfl
  | cons p rest ih => simp [referencesIn, ih]

@[simp] theorem references_markedIf (isMarked : Bool) (p : Phrase) :
    (markedIf isMarked p).references = p.references := by
  cases isMarked <;> simp [markedIf, references]

theorem references_unmarked (p : Phrase) : p.unmarked.references = p.references := by
  induction p with
  | text | set | reference => rfl
  | group body ih | capture index name body ih | rep own quantifier body ih => exact ih
  | marked piece ih => rw [unmarked, references, ih]
  | branch ps ih | choice ps ih =>
      simp only [unmarked, references, unmarkedEach_eq, referencesIn_eq, List.flatMap_def,
        List.map_map]
      exact congrArg List.flatten (List.map_congr_left ih)

end Phrase

def Joint.language : Joint → List (Language Char) → Language Char
  | sequence => List.prod
  | alternative => List.sum

theorem Numbering.language_join (s : Numbering) (marked : Bool) (joint : Joint) (ns : List Node) :
    (s.join marked joint ns).1.language = joint.language (ns.map Node.language) := by
  match joint, ns with
  | .sequence, [] | .alternative, [] => rfl
  | .sequence, [n] | .alternative, [n] => simp [join, Joint.language]
  | .sequence, n :: m :: rest => exact Node.product_eq (n :: m :: rest)
  | .alternative, n :: m :: rest => exact Node.sum_eq (n :: m :: rest)

namespace Phrase

theorem map_language_numberEach {ps : List Phrase}
    (ih : ∀ p ∈ ps, ∀ (marked : Bool) (s : Numbering), (p.number marked s).1.language = p.language)
    (marked : Bool) (s : Numbering) :
    (numberEach marked ps s).1.map Node.language = ps.map language := by
  induction ps generalizing s with
  | nil => rfl
  | cons p rest ihrest =>
      obtain ⟨hp, hrest⟩ := List.forall_mem_cons.1 ih
      simp only [numberEach, List.map_cons, hp marked s, ihrest hrest]

theorem language_number (p : Phrase) (marked : Bool) (s : Numbering) :
    (p.number marked s).1.language = p.language := by
  induction p generalizing marked s with
  | text | set => rfl
  | group body ih | capture index name body ih =>
      simp only [number, Numbering.capture, Numbering.node, Node.language, language, ih]
  | reference index =>
      simp only [number, language]
      split <;> rfl
  | rep own quantifier body ih =>
      simp only [number, Numbering.node, Node.language, language, ih]
  | marked piece ih => exact ih true s
  | branch ps ih =>
      rw [number, Numbering.language_join, map_language_numberEach ih, language, product_eq]
      rfl
  | choice ps ih =>
      rw [number, Numbering.language_join, map_language_numberEach ih, language, sum_eq]
      rfl

theorem referred?_number {p : Phrase} (plain : p.references = []) (marked : Bool)
    (s : Numbering) : ∀ n ∈ (p.number marked s).1.nodes, n.referred? = none := by
  have leaf {n : Node} (hn : n.referred? = none) (owns : n.children = []) :
      ∀ m ∈ n.nodes, m.referred? = none :=
    Node.forall_mem_nodes.2 ⟨hn, by simp [owns]⟩
  have one {n body : Node} (hn : n.referred? = none) (owns : n.children = [body])
      (hbody : ∀ m ∈ body.nodes, m.referred? = none) : ∀ m ∈ n.nodes, m.referred? = none :=
    Node.forall_mem_nodes.2 ⟨hn, by simpa [owns] using hbody⟩
  have parts {ps : List Phrase} (h : referencesIn ps = []) : ∀ p ∈ ps, p.references = [] := by
    simpa [referencesIn_eq] using h
  have each {ps : List Phrase}
      (h : ∀ p ∈ ps, ∀ (marked : Bool) (s : Numbering),
        ∀ n ∈ (p.number marked s).1.nodes, n.referred? = none) (marked : Bool) (s : Numbering) :
      ∀ n ∈ (numberEach marked ps s).1, ∀ m ∈ n.nodes, m.referred? = none :=
    forall_mem_numberEach (motive := fun n => ∀ m ∈ n.nodes, m.referred? = none)
      (I := fun _ => True) (fun _ _ _ h => h) (fun p hp marked s _ => h p hp marked s) marked s
      trivial
  induction p generalizing marked s with
  | text | set => exact leaf rfl rfl
  | group body ih | capture index name body ih | rep own quantifier body ih =>
      exact one rfl rfl (ih plain marked s)
  | reference index => cases plain
  | marked piece ih => exact ih plain true s
  | branch ps ih | choice ps ih =>
      exact Numbering.forall_nodes_join (fun _ tag => Joint.referred?_node _ tag _)
        (each (fun p hp => ih p hp (parts plain p hp)) marked s)

end Phrase

end PatternSampler
