import PatternSampler.Proofs.CharClass.Canonical
import PatternSampler.Proofs.CharClass.Predefined
import PatternSampler.Proofs.Grammar.Basic

/-!
# What the items of a class list

An item covers certain characters, and it is written with certain characters.  The first tell
what the class accepts, the second which alphabet it draws from.  Neither depends on the order
of the items, on the alphabet that the class had when an item came, or on its polarity.
-/

namespace PatternSampler.Grammar

inductive Listing
  | char (c : Char)
  | range (lo hi : Char)
  | shorthand (base : Shorthand) (negated : Bool)
  | named (name : ClassName)

namespace Listing

def Covers : Listing → Char → Prop
  | char c, ch => ch = c
  | range lo hi, ch => lo ≤ ch ∧ ch ≤ hi
  | shorthand s negated, ch => (s.base ch != negated) = true
  | named n, ch => n.accepts ch = true

def chars : Listing → List Char
  | char c => [c]
  | range lo hi => [lo, hi]
  | _ => []

def item : Listing → ClassItem
  | char c => .span c c
  | range lo hi => .span lo hi
  | shorthand s negated => .set (s.members negated)
  | named n => .set n.members

def insertion : Listing → Insertion
  | char c => .char c
  | range lo hi => .range lo hi
  | shorthand s negated => .whole (s.members negated)
  | named n => .whole n.members

variable {i : Listing} {items : List Listing} {negated : Bool} {members : CharClass} {ch : Char}

theorem insertItem_item (c : CharClass) (i : Listing) :
    c.insertItem i.item = i.insertion.apply c := by
  cases i <;> rfl

theorem reachable_insertion (i : Listing) : i.insertion.Reachable := by
  cases i with
  | char c => trivial
  | range lo hi => trivial
  | shorthand s negated => exact .ofSpans negated s.ascii_spans
  | named n => exact .ofSpans false n.ascii_spans

theorem covers_insertion : i.insertion.Covers ch ↔ i.Covers ch := by
  cases i with
  | char c => rfl
  | range lo hi => rfl
  | shorthand s negated =>
      have accepts := s.contains_members ch negated
      simp [insertion, Insertion.Covers, Covers, accepts]
  | named n =>
      have accepts := n.contains_members ch
      simp [insertion, Insertion.Covers, Covers, accepts]

theorem needs_bmp_char {c : Char} (accepted : Alphabet.ofCodePoint? c.toNat ≠ none) :
    Alphabet.ofCodePoint? c.toNat = some .bmp ↔ 0x7F < c.toNat := by
  have ascii : Alphabet.ascii.max = 0x7F := rfl
  simp only [Alphabet.ofCodePoint?, CharClass.holds_toNat, ascii] at accepted ⊢
  split
  · simp
    omega
  · split
    · simp
      omega
    · rename_i notAscii notBasic
      simp [notAscii, notBasic] at accepted

theorem needs_bmp_iff (accepted : i.insertion.needs? ≠ none) :
    i.insertion.needs? = some .bmp ↔ ∃ c ∈ i.chars, 0x7F < c.toNat := by
  cases i with
  | char c => simpa [chars, insertion, Insertion.needs?] using needs_bmp_char accepted
  | range lo hi =>
      obtain ⟨ordered, -⟩ := Insertion.needs?_range_ne_none.1 accepted
      have larger : lo.toNat ≤ hi.toNat := ordered
      simp only [insertion, Insertion.needs?, if_pos ordered] at accepted ⊢
      rw [needs_bmp_char accepted]
      simp [chars]
      omega
  | shorthand s negated =>
      have ascii : (s.members negated).alphabet = .ascii := rfl
      simp [insertion, Insertion.needs?, chars, ascii]
  | named n =>
      have ascii : n.members.alphabet = .ascii := rfl
      simp [insertion, Insertion.needs?, chars, ascii]

theorem unites_listed (built : listed negated (items.map item) = .ok members) :
    Insertion.Unites (.ofPolarity negated) (items.map insertion) members := by
  have applied : Insertion.applyAll (.ofPolarity negated) (items.map insertion) = .ok members := by
    rw [← built, listed, Insertion.applyAll, List.foldlM_map, List.foldlM_map]
    simp only [insertItem_item]
  refine Insertion.unites_applyAll (.ofPolarity negated) (fun i hi => ?_) applied
  obtain ⟨i, -, rfl⟩ := List.mem_map.1 hi
  exact i.reachable_insertion

theorem not_lists_ofPolarity : ¬(CharClass.ofPolarity negated).Lists ch := by
  have members : (CharClass.ofPolarity negated).members = ∅ := rfl
  have beyond : (CharClass.ofPolarity negated).beyond = false := rfl
  simp [CharClass.lists_iff, members, beyond]

theorem contains_listed (built : listed negated (items.map item) = .ok members) (ch : Char) :
    members.contains ch = true ↔ Xor (∃ i ∈ items, i.Covers ch) (negated = true) := by
  have united := unites_listed built
  have lists := united.lists ch
  simp only [not_lists_ofPolarity, false_or, List.mem_map, exists_exists_and_eq_and,
    covers_insertion] at lists
  have polarity : members.negated = negated := united.negated
  rw [CharClass.Lists, polarity] at lists
  rw [← lists]
  cases members.contains ch <;> cases negated <;> simp [Xor]

theorem alphabet_listed (built : listed negated (items.map item) = .ok members) :
    members.alphabet = .bmp ↔ ∃ i ∈ items, ∃ c ∈ i.chars, 0x7F < c.toNat := by
  have united := unites_listed built
  have needs (i : Listing) (hi : i ∈ items) :
      i.insertion.needs? = some .bmp ↔ ∃ c ∈ i.chars, 0x7F < c.toNat :=
    needs_bmp_iff (united.needed _ (List.mem_map_of_mem hi))
  have ascii : (CharClass.ofPolarity negated).alphabet = .ascii := rfl
  simp only [united.alphabet, ascii, reduceCtorEq, false_or, List.mem_map, exists_exists_and_eq_and]
  exact exists_congr fun i => and_congr_right (needs i)

end Listing

end PatternSampler.Grammar
