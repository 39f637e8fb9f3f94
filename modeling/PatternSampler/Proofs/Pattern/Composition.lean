import PatternSampler.Proofs.Phrase.Framing
import PatternSampler.Proofs.Token.Writing

/-!
# Pattern texts and languages

The language of a pattern holds the texts that it matches as a whole.  For texts that refer
to no group, writing a bar or nothing between two of them, or a quantifier behind one, comes
to the union, the concatenation or a repetition of their languages.
-/

open Computability

namespace PatternSampler

namespace Pattern

def language (p : Pattern) : Language Char := { w | p.isMatch w = true }

/-- The text is a pattern, and the language of its tree is `L`. -/
def Denotes (text : String) (L : Language Char) : Prop :=
  ∃ p, parseUnmarked text = .ok p ∧ p.language = L

theorem language_ofPhrase {text : String} {phrase : Phrase}
    (read : Phrase.read text.toList = .ok phrase) (plain : phrase.references = []) :
    (ofPhrase phrase.unmarked).language = phrase.language := by
  have wellFormed : (ofPhrase phrase.unmarked).WellFormed :=
    wellFormed_parseUnmarked (parseUnmarked_eq_ok.2 ⟨phrase, read, rfl⟩)
  have unreferred : ∀ n ∈ (ofPhrase phrase.unmarked).root.nodes, n.referred? = none :=
    Phrase.referred?_number (phrase.references_unmarked.trans plain) false .start
  have same : (ofPhrase phrase.unmarked).root.language = phrase.language :=
    (phrase.unmarked.language_number false .start).trans phrase.language_unmarked
  apply Language.ext
  intro w
  rw [← same]
  exact wellFormed.isMatch_iff_mem_language unreferred w

theorem denotes_of_read {text : String} {phrase : Phrase}
    (read : Phrase.read text.toList = .ok phrase) (plain : phrase.references = []) :
    Denotes text phrase.language :=
  ⟨_, parseUnmarked_eq_ok.2 ⟨phrase, read, rfl⟩, language_ofPhrase read plain⟩

theorem Denotes.exists_read {text : String} {L : Language Char} (h : Denotes text L)
    (plain : Plain text.toList) :
    ∃ phrase, Phrase.read text.toList = .ok phrase ∧ phrase.language = L := by
  obtain ⟨p, parsed, rfl⟩ := h
  obtain ⟨phrase, read, rfl⟩ := parseUnmarked_eq_ok.1 parsed
  exact ⟨phrase, read, (language_ofPhrase read (Phrase.references_of_read read plain)).symm⟩

section

variable {p q text : String} {L M : Language Char}

theorem Denotes.sound (h : Denotes p L) : ∀ t ∈ kinds p.toList, t.Sound := by
  obtain ⟨pattern, parsed, -⟩ := h
  obtain ⟨phrase, read, -⟩ := parseUnmarked_eq_ok.1 parsed
  obtain ⟨r, taken, -⟩ := Phrase.read_eq_ok.1 read
  exact Reader.sound_of_advance? taken

theorem Denotes.alternation (hp : Denotes p L) (hq : Denotes q M) (plain : Plain p.toList)
    (plain' : Plain q.toList) (written : text.toList = p.toList ++ '|' :: q.toList) :
    Denotes text (L + M) := by
  obtain ⟨first, read, rfl⟩ := hp.exists_read plain
  obtain ⟨second, read', rfl⟩ := hq.exists_read plain'
  obtain ⟨f, own, taken, waiting, groups, branches, means⟩ :=
    Phrase.advance?_of_read (r := .start) read plain rfl rfl
  rw [List.append_nil] at branches
  have bar : f.step 0 .bar = .ok { f with level := ⟨own, [], .none⟩ } := by
    rw [← branches]
    exact (Reader.Steps.bar waiting).step_eq
  obtain ⟨g, own', taken', waiting', groups', branches', means'⟩ :=
    Phrase.advance?_of_read (r := { f with level := ⟨own, [], .none⟩ }) read' plain' waiting rfl
  have whole : kinds text.toList = kinds p.toList ++ .bar :: kinds q.toList := by
    rw [written, kinds_append hp.sound (apart_cons (by decide) (by decide)), kinds_bar]
  have taken : Reader.start.advance? (kinds text.toList) = some g := by
    rw [whole, Reader.advance?_append, taken]
    exact Reader.advance?_cons_eq_some.2 ⟨_, bar, taken'⟩
  have phrase : g.level.toPhrase = .choice (own.reverse ++ own'.reverse) := by
    rw [Level.toPhrase, branches', List.reverse_append]
  have read : Phrase.read text.toList = .ok (.choice (own.reverse ++ own'.reverse)) :=
    Phrase.read_eq_ok.2 ⟨g, taken, waiting', groups'.trans groups, phrase⟩
  have language : (Phrase.choice (own.reverse ++ own'.reverse)).language =
      first.language + second.language := by
    rw [← means.language, ← means'.language]
    simp only [Phrase.language, Phrase.sum_eq, List.map_append, List.sum_append]
  rw [← language]
  apply denotes_of_read read
  simpa [Phrase.references, Phrase.referencesIn_eq] using
    And.intro means.references means'.references

theorem Denotes.group (hp : Denotes p L) (plain : Plain p.toList) (kind : GroupKind)
    (whole : kinds text.toList = .opening kind :: kinds p.toList ++ [.closing]) :
    Denotes text L := by
  obtain ⟨phrase, read, rfl⟩ := hp.exists_read plain
  obtain ⟨r, body, taken, waiting, groups, level, means⟩ :=
    Phrase.advance?_enclosed (r := .start) read plain rfl kind
  have read : Phrase.read text.toList = .ok (.choice [.branch [body]]) := by
    rw [← whole] at taken
    exact Phrase.read_eq_ok.2 ⟨r, taken, waiting, groups, by rw [level]; rfl⟩
  have language : (Phrase.choice [.branch [body]]).language = phrase.language := by
    simp [Phrase.language, Phrase.sum, Phrase.product, means.language]
  rw [← language]
  apply denotes_of_read read
  simp [Phrase.references, Phrase.referencesIn, means.references]

theorem Denotes.concatenation (hp : Denotes p L) (hq : Denotes q M) (plain : Plain p.toList)
    (plain' : Plain q.toList) (kind kind' : GroupKind)
    (whole : kinds text.toList = (.opening kind :: kinds p.toList ++ [.closing]) ++
      (.opening kind' :: kinds q.toList ++ [.closing])) :
    Denotes text (L * M) := by
  obtain ⟨first, read, rfl⟩ := hp.exists_read plain
  obtain ⟨second, read', rfl⟩ := hq.exists_read plain'
  obtain ⟨r, body, taken, waiting, groups, level, means⟩ :=
    Phrase.advance?_enclosed (r := .start) read plain rfl kind
  obtain ⟨r', body', taken', waiting', groups', level', means'⟩ :=
    Phrase.advance?_enclosed (r := r) read' plain' waiting kind'
  have taken : Reader.start.advance? (kinds text.toList) = some r' := by
    rw [whole, Reader.advance?_append, taken]
    exact taken'
  have read : Phrase.read text.toList = .ok (.choice [.branch [body, body']]) := by
    refine Phrase.read_eq_ok.2 ⟨r', taken, waiting', groups'.trans groups, ?_⟩
    rw [level', level]
    rfl
  have language : (Phrase.choice [.branch [body, body']]).language =
      first.language * second.language := by
    simp [Phrase.language, Phrase.sum, Phrase.product, means.language, means'.language]
  rw [← language]
  apply denotes_of_read read
  simp [Phrase.references, Phrase.referencesIn, means.references, means'.references]

theorem Denotes.quantified (hp : Denotes p L) (plain : Plain p.toList) (kind : GroupKind)
    {quantifier : Quantifier}
    (whole : kinds text.toList = (.opening kind :: kinds p.toList ++ [.closing]) ++
      [.quantifier (.ok quantifier)]) :
    Denotes text (quantifier.language L) := by
  obtain ⟨phrase, read, rfl⟩ := hp.exists_read plain
  obtain ⟨r, body, taken, waiting, groups, level, means⟩ :=
    Phrase.advance?_enclosed (r := .start) read plain rfl kind
  have step : r.step 0 (.quantifier (.ok quantifier)) =
      .ok { r with level := ⟨[], [], .quantified (.rep false quantifier body)⟩ } := by
    simp only [Reader.step, Reader.quantify, waiting, level, Reader.marks_of_resolved waiting]
    rfl
  have taken : Reader.start.advance? (kinds text.toList) =
      some { r with level := ⟨[], [], .quantified (.rep false quantifier body)⟩ } := by
    rw [whole, Reader.advance?_append, taken]
    exact Reader.advance?_cons_eq_some.2 ⟨_, step, rfl⟩
  have read : Phrase.read text.toList = .ok (.choice [.branch [.rep false quantifier body]]) :=
    Phrase.read_eq_ok.2 ⟨_, taken, waiting, groups, rfl⟩
  have language : (Phrase.choice [.branch [.rep false quantifier body]]).language =
      quantifier.language phrase.language := by
    simp [Phrase.language, Phrase.sum, Phrase.product, means.language]
  rw [← language]
  apply denotes_of_read read
  simp [Phrase.references, Phrase.referencesIn, means.references]

theorem Denotes.head?_ne (h : Denotes p L) : p.toList.head? ≠ some '?' := by
  intro starts
  obtain ⟨rest, text⟩ := List.head?_eq_some_iff.1 starts
  obtain ⟨pattern, parsed, -⟩ := h
  obtain ⟨phrase, read, -⟩ := parseUnmarked_eq_ok.1 parsed
  obtain ⟨r, taken, -⟩ := Phrase.read_eq_ok.1 read
  obtain ⟨others, tokens⟩ := exists_tokensFrom 0 '?' rest
  have first : kinds p.toList = .quantifier (.ok ⟨0, some 1, false⟩) :: others.map Prod.snd := by
    rw [kinds, text, PatternSampler.tokens, tokens]
    rfl
  rw [first] at taken
  obtain ⟨next, step, -⟩ := Reader.advance?_cons_eq_some.1 taken
  cases step

end

end Pattern

namespace Quantifier

variable {L : Language Char} {min : Nat} {max : Option Nat} {w : List Char}

theorem mem_language : w ∈ language ⟨min, max, false⟩ L ↔
    ∃ k, Allows ⟨min, max, false⟩ k ∧ w ∈ L ^ k := Iff.rfl

theorem mem_language_equal : w ∈ language ⟨min, max, true⟩ L ↔
    (Allows ⟨min, max, true⟩ 0 ∧ w = []) ∨
      ∃ k, Allows ⟨min, max, true⟩ (k + 1) ∧ ∃ u ∈ L, w = (List.replicate (k + 1) u).flatten :=
  Iff.rfl

theorem language_star (L : Language Char) : language ⟨0, none, false⟩ L = L∗ := by
  rw [Language.kstar_eq_iSup_pow]
  apply Language.ext
  intro w
  simp [mem_language, Allows, Language.mem_iSup]

theorem language_plus (L : Language Char) : language ⟨1, none, false⟩ L = L * L∗ := by
  rw [Language.kstar_eq_iSup_pow, Language.mul_iSup]
  apply Language.ext
  intro w
  simp only [mem_language, Allows, Language.mem_iSup, ← pow_succ']
  constructor
  · rintro ⟨k, ⟨some, -⟩, word⟩
    obtain ⟨j, rfl⟩ := Nat.exists_eq_add_of_le' some
    exact ⟨j, word⟩
  · rintro ⟨j, word⟩
    exact ⟨j + 1, ⟨Nat.le_add_left 1 j, by simp⟩, word⟩

theorem language_option (L : Language Char) : language ⟨0, some 1, false⟩ L = 1 + L := by
  apply Language.ext
  intro w
  rw [mem_language, Language.mem_add]
  constructor
  · rintro ⟨k, ⟨-, atMost⟩, word⟩
    rcases Nat.le_one_iff_eq_zero_or_eq_one.1 (atMost 1 rfl) with rfl | rfl
    · exact .inl word
    · exact .inr (pow_one L ▸ word)
  · rintro (empty | word)
    · exact ⟨0, ⟨Nat.le_refl 0, by simp⟩, empty⟩
    · exact ⟨1, ⟨Nat.zero_le 1, by simp⟩, (pow_one L).symm ▸ word⟩

theorem language_exact (L : Language Char) (n : Nat) : language ⟨n, some n, false⟩ L = L ^ n := by
  apply Language.ext
  intro w
  rw [mem_language]
  constructor
  · rintro ⟨k, ⟨atLeast, atMost⟩, word⟩
    obtain rfl : k = n := Nat.le_antisymm (atMost n rfl) atLeast
    exact word
  · intro word
    exact ⟨n, ⟨Nat.le_refl n, by simp⟩, word⟩

theorem language_atLeast (L : Language Char) (n : Nat) :
    language ⟨n, none, false⟩ L = { w | ∃ k, n ≤ k ∧ w ∈ L ^ k } := by
  apply Language.ext
  intro w
  simp [mem_language, Allows]
  rfl

theorem language_bounded (L : Language Char) (n m : Nat) :
    language ⟨n, some m, false⟩ L = { w | ∃ k, n ≤ k ∧ k ≤ m ∧ w ∈ L ^ k } := by
  apply Language.ext
  intro w
  simp [mem_language, Allows, and_assoc]
  rfl

theorem language_equal (L : Language Char) {n m : Nat} (le : n ≤ m) :
    language ⟨n, some m, true⟩ L = { w | (n = 0 ∧ w = []) ∨
      ∃ k, n ≤ k ∧ k ≤ m ∧ ∃ u ∈ L, w = (List.replicate k u).flatten } := by
  have allows (k : Nat) : Allows ⟨n, some m, true⟩ k ↔ n ≤ k ∧ k ≤ m := by simp [Allows]
  apply Language.ext
  intro w
  rw [mem_language_equal]
  simp only [allows]
  constructor
  · rintro (⟨⟨least, -⟩, rfl⟩ | ⟨k, ⟨atLeast, atMost⟩, unit⟩)
    · exact .inl ⟨Nat.le_zero.1 least, rfl⟩
    · exact .inr ⟨k + 1, atLeast, atMost, unit⟩
  · rintro (⟨rfl, rfl⟩ | ⟨k, atLeast, atMost, unit⟩)
    · exact .inl ⟨⟨Nat.le_refl 0, Nat.zero_le m⟩, rfl⟩
    · cases k with
      | zero =>
          obtain ⟨u, -, rfl⟩ := unit
          exact .inl ⟨⟨atLeast, Nat.zero_le m⟩, rfl⟩
      | succ k => exact .inr ⟨k, ⟨atLeast, atMost⟩, unit⟩

end Quantifier

namespace Pattern

/-- The texts that are written from patterns without back references are patterns, and
their languages are put together from those of their parts.  A quantifier for equal
repetitions also allows none at all, whatever its body may spell. -/
theorem denotes_composed {p q : String} {L M : Language Char} (hp : Denotes p L)
    (hq : Denotes q M) (plain : Plain p.toList) (plain' : Plain q.toList) {n m : Nat} (le : n ≤ m)
    (small : m ≤ maxRepeat) :
    Denotes (p ++ "|" ++ q) (L + M) ∧
    Denotes ("(" ++ p ++ ")") L ∧
    Denotes ("(?:" ++ p ++ ")") L ∧
    Denotes ("(?:" ++ p ++ ")(?:" ++ q ++ ")") (L * M) ∧
    Denotes ("(?:" ++ p ++ ")*") L∗ ∧
    Denotes ("(?:" ++ p ++ ")+") (L * L∗) ∧
    Denotes ("(?:" ++ p ++ ")?") (1 + L) ∧
    Denotes ("(?:" ++ p ++ ")\x7b" ++ toString n ++ "\x7d") (L ^ n) ∧
    Denotes ("(?:" ++ p ++ ")\x7b" ++ toString n ++ ",\x7d") { w | ∃ k, n ≤ k ∧ w ∈ L ^ k } ∧
    Denotes ("(?:" ++ p ++ ")\x7b" ++ toString n ++ "," ++ toString m ++ "\x7d")
      { w | ∃ k, n ≤ k ∧ k ≤ m ∧ w ∈ L ^ k } ∧
    Denotes ("(?:" ++ p ++ ")\x7b=" ++ toString n ++ "," ++ toString m ++ "\x7d")
      { w | (n = 0 ∧ w = []) ∨
        ∃ k, n ≤ k ∧ k ≤ m ∧ ∃ u ∈ L, w = (List.replicate k u).flatten } := by
  have enclosed (rest : List Char) : kinds (p.toList ++ ')' :: rest) =
      kinds p.toList ++ .closing :: kinds rest := kinds_enclosed hp.sound rest
  have group (rest : List Char) : kinds ('(' :: '?' :: ':' :: (p.toList ++ ')' :: rest)) =
      (.opening .plain :: kinds p.toList ++ [.closing]) ++ kinds rest := by
    rw [kinds_plain, enclosed]
    simp
  have quantified {text : String} (suffix : List Char) {quantifier : Quantifier}
      (read : kinds suffix = [.quantifier (.ok quantifier)])
      (written : text.toList = '(' :: '?' :: ':' :: (p.toList ++ ')' :: suffix)) :
      Denotes text (quantifier.language L) :=
    hp.quantified plain .plain (by rw [written, group, read])
  have small' : n ≤ maxRepeat := Nat.le_trans le small
  refine ⟨?_, ?_, ?_, ?_, ?_, ?_, ?_, ?_, ?_, ?_, ?_⟩
  · exact hp.alternation hq plain plain' (by simp)
  · have other : (p.toList ++ [')']).head? ≠ some '?' := by
      have first := hp.head?_ne
      cases text : p.toList <;> simp_all
    apply hp.group plain (.capturing none)
    have written : ("(" ++ p ++ ")").toList = '(' :: (p.toList ++ [')']) := by simp
    rw [written, kinds_capturing other, enclosed]
    rfl
  · apply hp.group plain .plain
    have written : ("(?:" ++ p ++ ")").toList = '(' :: '?' :: ':' :: (p.toList ++ [')']) := by simp
    rw [written, group]
    exact List.append_nil _
  · apply hp.concatenation hq plain plain' .plain .plain
    have written : ("(?:" ++ p ++ ")(?:" ++ q ++ ")").toList =
        '(' :: '?' :: ':' :: (p.toList ++ ')' :: '(' :: '?' :: ':' :: (q.toList ++ [')'])) := by
      simp
    rw [written, group, kinds_plain, kinds_enclosed hq.sound]
    rfl
  · rw [← Quantifier.language_star]
    exact quantified ['*'] rfl (by simp)
  · rw [← Quantifier.language_plus]
    exact quantified ['+'] rfl (by simp)
  · rw [← Quantifier.language_option]
    exact quantified ['?'] rfl (by simp)
  · rw [← Quantifier.language_exact]
    exact quantified _ (kinds_exact (decimal_toDigits n) false small' (.inl rfl))
      (by simp [openingBrace])
  · rw [← Quantifier.language_atLeast]
    exact quantified _ (kinds_atLeast (decimal_toDigits n) false small' (.inl rfl))
      (by simp [openingBrace])
  · rw [← Quantifier.language_bounded]
    have bounds :=
      kinds_bounded (decimal_toDigits n) (decimal_toDigits m) false le small (.inl rfl)
    exact quantified _ bounds (by simp [openingBrace])
  · rw [← Quantifier.language_equal L le]
    have bounds :=
      kinds_bounded (decimal_toDigits n) (decimal_toDigits m) true le small (.inl rfl)
    exact quantified _ bounds (by simp [openingBrace])

theorem denotes_composed_literals : ∃ p q, parseUnmarked "a|b" = .ok p ∧
    parseUnmarked "c*" = .ok q ∧ Plain "a|b".toList ∧ Plain "c*".toList ∧ 2 ≤ 3 ∧ 3 ≤ maxRepeat ∧
    Denotes ("(?:" ++ "a|b" ++ ")(?:" ++ "c*" ++ ")") (p.language * q.language) := by
  have first : parseUnmarked "a|b" = .ok _ := rfl
  have second : parseUnmarked "c*" = .ok _ := rfl
  have plain : Plain "a|b".toList := by
    have tokens : kinds "a|b".toList = [.literal 'a', .bar, .literal 'b'] := rfl
    rw [Plain, tokens]
    simp
  have plain' : Plain "c*".toList := by
    have tokens : kinds "c*".toList = [.literal 'c', .quantifier (.ok ⟨0, none, false⟩)] := rfl
    rw [Plain, tokens]
    simp
  have composed := denotes_composed ⟨_, first, rfl⟩ ⟨_, second, rfl⟩ plain plain'
    (show 2 ≤ 3 by decide) (show 3 ≤ maxRepeat by decide)
  exact ⟨_, _, first, second, plain, plain', by decide, by decide, composed.2.2.2.1⟩

/-- A body that matches nothing may be repeated no times. -/
theorem not_denotes_equal_repetitions : Denotes "[^\\D\\d]" 0 ∧ Plain "[^\\D\\d]".toList ∧
    ¬ Denotes "(?:[^\\D\\d])\x7b=0,1\x7d"
      { w | ∃ k, 0 ≤ k ∧ k ≤ 1 ∧ ∃ u ∈ (0 : Language Char), w = (List.replicate k u).flatten } := by
  obtain ⟨members, tokens, read, excluded⟩ : ∃ members : CharClass,
      kinds "[^\\D\\d]".toList = [.set members] ∧
      Phrase.read "[^\\D\\d]".toList = .ok (.choice [.branch [.set members]]) ∧
      ∀ c, members.contains c = false := by
    refine ⟨⟨.ascii, true, ⟨[⟨0, 127, by decide⟩]⟩, true, 0⟩, rfl, rfl, fun c => ?_⟩
    by_cases inside : c.toNat ≤ 127 <;>
      simp [CharClass.contains, CharClass.lists, IntervalSet.contains, Span.contains,
        Alphabet.max, inside, Nat.not_le.1]
  have language : (Phrase.choice [.branch [.set members]]).language = 0 := by
    simp only [Phrase.language, Phrase.sum, Phrase.product, mul_one, add_zero]
    apply Language.ext
    rintro w
    constructor
    · rintro ⟨c, contains, -⟩
      exact absurd contains (by simp [excluded])
    · exact False.elim
  refine ⟨language ▸ denotes_of_read read rfl, ?_, ?_⟩
  · rw [Plain, tokens]
    simp
  · rintro ⟨p, parsed, language⟩
    have accepted : ∃ p, parseUnmarked "(?:[^\\D\\d])\x7b=0,1\x7d" = .ok p ∧
        p.isMatch [] = true := ⟨_, rfl, by decide⟩
    obtain ⟨p', parsed', accepted⟩ := accepted
    obtain rfl : p' = p := Except.ok.inj (parsed'.symm.trans parsed)
    have empty : [] ∈ p'.language := accepted
    rw [language] at empty
    obtain ⟨k, -, -, u, none, -⟩ := empty
    exact none

end Pattern

end PatternSampler
