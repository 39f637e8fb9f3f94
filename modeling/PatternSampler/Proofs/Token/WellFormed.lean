import PatternSampler.Token.Basic
import PatternSampler.Proofs.CharClass.WellFormed

/-!
# Well-formed tokens

Whatever the text, the classes among its tokens are well-formed and the bounds of its
quantifiers are in order and small.
-/

namespace PatternSampler

theorem bind_eq_ok {ε α β : Type} {x : Except ε α} {f : α → Except ε β} {b : β} :
    x >>= f = .ok b ↔ ∃ a, x = .ok a ∧ f a = .ok b := by
  cases x <;> simp [Bind.bind, Except.bind]

structure Quantifier.WellFormed (q : Quantifier) : Prop where
  min_le : q.min ≤ maxRepeat
  ordered : ∀ max, q.max = some max → q.min ≤ max
  max_le : ∀ max, q.max = some max → max ≤ maxRepeat

namespace CharClass

theorem wellFormed_shorthand? {c : Char} {members : CharClass} (h : shorthand? c = some members) :
    members.WellFormed := by
  unfold shorthand? at h
  split at h <;> simp only [Option.some.injEq, reduceCtorEq] at h <;> subst h <;>
    exact .ofSpans _ (by decide)

theorem wellFormed_named? {name : String} {members : CharClass} (h : named? name = some members) :
    members.WellFormed := by
  obtain ⟨spans, hspans, rfl⟩ := Option.map_eq_some_iff.1 h
  obtain ⟨before, after, hentry, -⟩ := List.lookup_eq_some_iff.1 hspans
  have small : ∀ entry ∈ namedSpans, ∀ s ∈ entry.2, s.hi ≤ 0x7F := by decide
  exact .ofSpans _ (small (name, spans) (by simp [hentry]))

theorem wellFormed_dot : dot.WellFormed := .ofSpans _ (by decide)

end CharClass

def ClassItem.WellFormed : ClassItem → Prop
  | .span _ _ => True
  | .set members => members.WellFormed

theorem wellFormed_scanClassAtom {cs : List Char} {members : CharClass} {length : Nat}
    (h : scanClassAtom cs = .ok (.set members, length)) : members.WellFormed := by
  unfold scanClassAtom at h
  split at h
  · simp at h
  · split at h
    · rename_i hset
      obtain ⟨c, -, hset⟩ := Option.bind_eq_some_iff.1 hset
      cases h
      exact CharClass.wellFormed_shorthand? hset
    · split at h <;> simp at h
  · simp at h

theorem wellFormed_scanClassItem {cs : List Char} {item : ClassItem} {length : Nat}
    (h : scanClassItem cs = .ok (item, length)) : item.WellFormed := by
  unfold scanClassItem at h
  split at h
  · split at h
    · rename_i hnamed
      cases h
      exact CharClass.wellFormed_named? hnamed
    · simp at h
  · split at h
    · simp at h
    · rename_i hatom
      cases h
      exact wellFormed_scanClassAtom hatom
    · -- Every other item is a span.
      split at h
      · split at h
        · cases h
          trivial
        · split at h <;> cases h
          trivial
      · cases h
        trivial

theorem wellFormed_scanClassBody (position : Nat) (first : Bool) (skip : Nat) (cs : List Char) :
    ∀ entry ∈ (scanClassBody position first skip cs).items, entry.2.WellFormed := by
  induction cs generalizing position first skip with
  | nil => simp [scanClassBody]
  | cons c rest ih =>
      cases skip with
      | succ skip => exact ih _ _ _
      | zero =>
          unfold scanClassBody
          split
          · simp
          · split
            · simp
            · rename_i hitem
              exact List.forall_mem_cons.2 ⟨wellFormed_scanClassItem hitem, ih _ _ _⟩

theorem CharClass.WellFormed.insertItems {c c' : CharClass} (hc : c.WellFormed)
    {items : List (Nat × ClassItem)} (hitems : ∀ entry ∈ items, entry.2.WellFormed)
    (h : c.insertItems items = .ok c') : c'.WellFormed := by
  induction items generalizing c with
  | nil =>
      cases h
      exact hc
  | cons entry rest ih =>
      obtain ⟨position, item⟩ := entry
      obtain ⟨hitem, hrest⟩ := List.forall_mem_cons.1 hitems
      unfold CharClass.insertItems at h
      split at h
      · rename_i inserted hinsert
        refine ih ?_ hrest h
        cases item with
        | span lo hi => exact hc.insertRange hinsert
        | set members =>
            cases hinsert
            exact hc.insertClass hitem
      · simp at h

theorem wellFormed_scanClass {cs : List Char} {members : CharClass} {length : Nat}
    (h : scanClass cs = .ok (members, length)) : members.WellFormed := by
  simp only [scanClass, bind_eq_ok] at h
  obtain ⟨inserted, hinsert, ending, -, hpure⟩ := h
  cases hpure
  exact (CharClass.wellFormed_ofPolarity _).insertItems (wellFormed_scanClassBody _ _ _ _) hinsert

theorem le_of_repeatCount {position count : Nat} {digits : List Char}
    (h : repeatCount position digits = .ok count) : count ≤ maxRepeat := by
  unfold repeatCount at h
  dsimp only at h
  split at h
  · simp at h
  · cases h
    omega

theorem wellFormed_scanBraces {cs : List Char} {q : Quantifier} {length : Nat}
    (h : scanBraces cs = .ok (q, length)) : q.WellFormed := by
  simp only [scanBraces] at h
  generalize (if cs[1]? == some '=' then 2 else 1) = start at h
  rw [bind_eq_ok] at h
  obtain ⟨min, hmin, h⟩ := h
  have hmin := le_of_repeatCount hmin
  split at h
  · obtain ⟨_, hthrow, _⟩ := bind_eq_ok.1 h
    cases hthrow
  split at h
  · rw [bind_eq_ok] at h
    obtain ⟨max, hmax, h⟩ := h
    have hmax := le_of_repeatCount hmax
    split at h
    · cases h
      exact ⟨hmin, by simp, by simp⟩
    · split at h
      · obtain ⟨_, hthrow, _⟩ := bind_eq_ok.1 h
        cases hthrow
      · rename_i hlt
        cases h
        refine ⟨hmin, ?_, ?_⟩ <;> rintro _ ⟨⟩
        · exact Nat.not_lt.1 hlt
        · exact hmax
    · cases h
  · cases h
    refine ⟨hmin, ?_, ?_⟩ <;> rintro _ ⟨⟩
    · exact Nat.le_refl _
    · exact hmin
  · cases h

def Token.WellFormed : Token → Prop
  | .set members => members.WellFormed
  | .quantifier (.ok bounds) => bounds.WellFormed
  | _ => True

theorem wellFormed_withLazy {cs : List Char} {bounds : Quantifier} (h : bounds.WellFormed)
    (length : Nat) : (withLazy cs bounds length).1.WellFormed := h

theorem wellFormed_scanOpening (cs : List Char) : (scanOpening cs).1.WellFormed := by
  unfold scanOpening
  split
  · trivial
  · split <;> trivial
  · trivial
  · trivial

theorem wellFormed_scanBracket (cs : List Char) : (scanBracket cs).1.WellFormed := by
  unfold scanBracket
  split
  · split
    · trivial
    · split
      · rename_i hnamed
        exact CharClass.wellFormed_named? hnamed
      · trivial
  · split
    · rename_i hclass
      exact wellFormed_scanClass hclass
    · trivial

theorem wellFormed_scanEscape (rest : List Char) : (scanEscape rest).1.WellFormed := by
  unfold scanEscape
  split
  · trivial
  · split <;> trivial
  · trivial
  · split
    · rename_i hset
      obtain ⟨c, -, hset⟩ := Option.bind_eq_some_iff.1 hset
      exact CharClass.wellFormed_shorthand? hset
    · split <;> trivial

theorem wellFormed_scanToken (c : Char) (rest : List Char) : (scanToken c rest).1.WellFormed := by
  have star : Quantifier.WellFormed ⟨0, none, false⟩ := ⟨by decide, by simp, by simp⟩
  have plus : Quantifier.WellFormed ⟨1, none, false⟩ := ⟨by decide, by simp, by simp⟩
  have option : Quantifier.WellFormed ⟨0, some 1, false⟩ :=
    ⟨by decide, by simp, by simp [maxRepeat]⟩
  unfold scanToken
  split
  · exact CharClass.wellFormed_dot
  · trivial
  · trivial
  · trivial
  · exact wellFormed_scanOpening _
  · trivial
  · exact wellFormed_scanBracket _
  · trivial
  · exact wellFormed_withLazy star 1
  · exact wellFormed_withLazy plus 1
  · exact wellFormed_withLazy option 1
  · split
    · rename_i hbraces
      exact wellFormed_withLazy (wellFormed_scanBraces hbraces) _
    · trivial
  · exact wellFormed_scanEscape _
  · trivial

theorem wellFormed_tokensFrom (position skip : Nat) (text : List Char) :
    ∀ t ∈ tokensFrom position skip text, t.2.WellFormed := by
  induction text generalizing position skip with
  | nil => simp [tokensFrom]
  | cons c rest ih =>
      cases skip with
      | succ skip => exact ih _ _
      | zero =>
          have htoken := wellFormed_scanToken c rest
          unfold tokensFrom
          split
          · simp [Token.WellFormed]
          · rename_i hscan
            rw [hscan] at htoken
            exact List.forall_mem_cons.2 ⟨htoken, ih _ _⟩

theorem wellFormed_tokens (text : List Char) : ∀ t ∈ tokens text, t.2.WellFormed :=
  wellFormed_tokensFrom 0 0 text

end PatternSampler
