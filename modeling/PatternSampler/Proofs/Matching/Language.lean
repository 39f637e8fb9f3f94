import Mathlib.Computability.Language
import PatternSampler.Proofs.Generation.Conforming

/-!
# The language of a tree

What a tree without back references matches depends on its parts only: its language is put
together from theirs by union, concatenation and repetition.  A match takes a word of the
language from the text, and every word that stands in the text can be taken.
-/

namespace PatternSampler

/-- The words that repeat words of a language as often as the quantifier allows.  If all
have to be equal, none at all is allowed even where the language has no word. -/
def Quantifier.language (q : Quantifier) (L : Language Char) : Language Char :=
  if q.same then
    { w | (q.Allows 0 ∧ w = []) ∨
      ∃ k, q.Allows (k + 1) ∧ ∃ u ∈ L, w = (List.replicate (k + 1) u).flatten }
  else { w | ∃ k, q.Allows k ∧ w ∈ L ^ k }

def CharClass.language (c : CharClass) : Language Char := { w | ∃ ch, c.contains ch ∧ w = [ch] }

namespace Node

mutual

/-- The language of a tree in which no node refers to a group. -/
def language : Node → Language Char
  | text _ chars => {chars}
  | set _ members => members.language
  | rep _ quantifier body => quantifier.language (language body)
  | seq _ children => product children
  | alt _ children => sum children
  | group _ body => language body
  | capture _ _ _ body => language body
  | backref .. => 1

def product : List Node → Language Char
  | [] => 1
  | n :: rest => language n * product rest

def sum : List Node → Language Char
  | [] => 0
  | n :: rest => language n + sum rest

end

theorem product_eq (ns : List Node) : product ns = (ns.map language).prod := by
  induction ns with
  | nil => rfl
  | cons n rest ih => simp [product, ih]

theorem sum_eq (ns : List Node) : sum ns = (ns.map language).sum := by
  induction ns with
  | nil => rfl
  | cons n rest ih => simp [sum, ih]

theorem mem_sum {ns : List Node} {w : List Char} : w ∈ sum ns ↔ ∃ n ∈ ns, w ∈ n.language := by
  induction ns with
  | nil => simp [sum]
  | cons n rest ih => simp [sum, Language.mem_add, ih]

end Node

section

variable {text : List Char} {slots : Nat} {s t u : MatchState}

theorem extract_self (text : List Char) (i : Nat) : text.extract i i = [] := by
  simp [List.extract_eq_take_drop]

theorem extract_append {i j k : Nat} (first : i ≤ j) (second : j ≤ k) :
    text.extract i j ++ text.extract j k = text.extract i k := by
  obtain ⟨m, rfl⟩ := Nat.exists_eq_add_of_le first
  obtain ⟨n, rfl⟩ := Nat.exists_eq_add_of_le second
  have whole : i + m + n - i = m + n := by omega
  simp only [List.extract_eq_take_drop, Nat.add_sub_cancel_left, whole, ← List.drop_drop]
  exact List.take_add.symm

theorem extract_eq_of_isPrefix {chars : List Char} {i j : Nat} (standing : chars <+: text.drop i)
    (position : j = i + chars.length) : text.extract i j = chars := by
  rw [List.extract_eq_take_drop, position, Nat.add_sub_cancel_left]
  exact (List.prefix_iff_eq_take.1 standing).symm

theorem Reads.extract_eq {chars : List Char} (h : Reads text chars s t) :
    text.extract s.position t.position = chars := by
  obtain ⟨standing, rfl⟩ := h
  exact extract_eq_of_isPrefix standing rfl

theorem MatchState.Moves.extract_append (first : s.Moves text slots u)
    (second : u.Moves text slots t) :
    text.extract s.position u.position ++ text.extract u.position t.position =
      text.extract s.position t.position :=
  PatternSampler.extract_append first.forwards second.forwards

theorem Rounds.extract_mem_pow {R : MatchState → MatchState → Prop} {L : Language Char} {k : Nat}
    (h : Rounds R k s t)
    (move : ∀ s t, s.Within text slots → R s t → s.Moves text slots t)
    (word : ∀ s t, s.Within text slots → R s t → text.extract s.position t.position ∈ L)
    (hs : s.Within text slots) : text.extract s.position t.position ∈ L ^ k := by
  induction h with
  | zero s =>
      rw [extract_self, pow_zero]
      exact Language.nil_mem_one
  | succ first others ih =>
      have moved := move _ _ hs first
      rw [← moved.extract_append (others.moves move moved.within), pow_succ']
      exact Language.append_mem_mul (word _ _ hs first) (ih moved.within)

namespace Node

theorem LeadsAfter.extract_mem_product {ns : List Node} (h : LeadsAfter text ns s t)
    (each : ∀ n ∈ ns, ∀ s t, s.Within text slots → n.Leads text s t →
      text.extract s.position t.position ∈ n.language)
    (hs : s.Within text slots) : text.extract s.position t.position ∈ product ns := by
  induction ns generalizing s with
  | nil =>
      cases h
      rw [extract_self]
      exact Language.nil_mem_one
  | cons n rest ih =>
      obtain ⟨hn, hrest⟩ := List.forall_mem_cons.1 each
      obtain ⟨u, first, others⟩ := h
      have moved := first.moves hs
      have further := others.moves (fun n _ s t hs h => h.moves hs) moved.within
      rw [← moved.extract_append further]
      exact Language.append_mem_mul (hn _ _ hs first) (ih others hrest moved.within)

theorem Leads.extract_mem_language {n : Node} (h : n.Leads text s t) (hs : s.Within text slots)
    (plain : ∀ m ∈ n.nodes, m.referred? = none) :
    text.extract s.position t.position ∈ n.language := by
  induction n generalizing s t with
  | text tag chars => exact Reads.extract_eq h
  | set tag members =>
      obtain ⟨c, contains, reads⟩ := h
      exact ⟨c, contains, reads.extract_eq⟩
  | rep tag quantifier body ih =>
      obtain ⟨-, below⟩ := forall_mem_nodes.1 plain
      have word (s t : MatchState) (hs : s.Within text slots) (lead : body.Leads text s t) :
          text.extract s.position t.position ∈ body.language :=
        ih lead hs (below body (List.mem_singleton_self body))
      rw [Leads] at h
      rw [language, Quantifier.language]
      cases same : quantifier.same with
      | false =>
          rw [same] at h
          obtain ⟨k, allowed, rounds⟩ := h
          exact ⟨k, allowed, rounds.extract_mem_pow (fun s t hs h => h.moves hs) word hs⟩
      | true =>
          rw [same] at h
          rcases h with ⟨allowed, rfl⟩ | ⟨k, u, allowed, first, copies⟩
          · exact .inl ⟨allowed, extract_self _ _⟩
          · have moved := first.moves hs
            refine .inr ⟨k, allowed, _, word _ _ hs first, ?_⟩
            rw [← moved.extract_append (copies.moves moved.within), copies.extract_eq]
            rfl
  | seq tag children ih =>
      obtain ⟨-, below⟩ := forall_mem_nodes.1 plain
      exact LeadsAfter.extract_mem_product h
        (fun n hn s t hs lead => ih n hn lead hs (below n hn)) hs
  | alt tag children ih =>
      obtain ⟨-, below⟩ := forall_mem_nodes.1 plain
      obtain ⟨n, hn, lead⟩ := leadsAmong_iff.1 h
      exact mem_sum.2 ⟨n, hn, ih n hn lead hs (below n hn)⟩
  | group tag body ih =>
      obtain ⟨-, below⟩ := forall_mem_nodes.1 plain
      exact ih h hs (below body (List.mem_singleton_self body))
  | capture tag index name body ih =>
      obtain ⟨-, below⟩ := forall_mem_nodes.1 plain
      obtain ⟨u, lead, -, rfl⟩ := h
      have word : text.extract s.position u.position ∈ body.language :=
        ih lead hs (below body (List.mem_singleton_self body))
      exact word
  | backref tag target index body _ =>
      have excluded := plain _ (self_mem_nodes _)
      cases excluded

end Node

theorem Covers.first_word {L : Language Char} {R : MatchState → MatchState → Prop}
    (covers : Covers text slots (fun w _ => w ∈ L) R)
    (move : ∀ s t, s.Within text slots → R s t → s.Moves text slots t) {a b : List Char}
    (word : a ∈ L) (hs : s.Within text slots) (standing : a ++ b <+: text.drop s.position) :
    ∃ t, R s t ∧ t.Within text slots ∧ t.position = s.position + a.length ∧
      b <+: text.drop t.position :=
  @Covers.first _ _ _ _ _ covers move _ _ 0 word hs standing

theorem covers_pow {L : Language Char} {R : MatchState → MatchState → Prop}
    (covers : Covers text slots (fun w _ => w ∈ L) R)
    (move : ∀ s t, s.Within text slots → R s t → s.Moves text slots t) (k : Nat) :
    Covers text slots (fun w _ => w ∈ L ^ k) (Rounds R k) := by
  induction k with
  | zero =>
      intro w hits s empty hs standing
      obtain rfl : w = [] := by simpa using empty
      exact ⟨s, .zero s, rfl⟩
  | succ k ih =>
      intro w hits s word hs standing
      rw [pow_succ'] at word
      obtain ⟨a, ha, b, hb, rfl⟩ := Language.mem_mul.1 word
      obtain ⟨t, taken, within, position, after⟩ := covers.first_word move ha hs standing
      obtain ⟨r, rounds, further⟩ := ih b hits t hb within after
      refine ⟨r, .succ taken rounds, ?_⟩
      rw [further, position, List.length_append, Nat.add_assoc]

namespace Node

theorem covers_product {ns : List Node}
    (each : ∀ n ∈ ns, Covers text slots (fun w _ => w ∈ n.language) (n.Leads text)) :
    Covers text slots (fun w _ => w ∈ product ns) (LeadsAfter text ns) := by
  induction ns with
  | nil =>
      intro w hits s empty hs standing
      obtain rfl : w = [] := empty
      exact ⟨s, rfl, rfl⟩
  | cons n rest ih =>
      obtain ⟨hn, hrest⟩ := List.forall_mem_cons.1 each
      intro w hits s word hs standing
      obtain ⟨a, ha, b, hb, rfl⟩ := Language.mem_mul.1 word
      obtain ⟨t, taken, within, position, after⟩ :=
        hn.first_word (fun _ _ hs h => h.moves hs) ha hs standing
      obtain ⟨r, through, further⟩ := ih hrest b hits t hb within after
      refine ⟨r, ⟨t, taken, through⟩, ?_⟩
      rw [further, position, List.length_append, Nat.add_assoc]

theorem covers_language {n : Node} (good : ∀ m ∈ n.nodes, m.Fits slots ∧ m.referred? = none) :
    Covers text slots (fun w _ => w ∈ n.language) (n.Leads text) := by
  induction n with
  | text tag chars =>
      intro w hits s word hs standing
      obtain rfl : w = chars := word
      exact ⟨_, ⟨standing, rfl⟩, rfl⟩
  | set tag members =>
      rintro w hits s ⟨c, contains, rfl⟩ hs standing
      exact ⟨_, ⟨c, contains, standing, rfl⟩, rfl⟩
  | rep tag quantifier body ih =>
      obtain ⟨-, below⟩ := forall_mem_nodes.1 good
      have body_covers := ih (below body (List.mem_singleton_self body))
      have move (s t : MatchState) (hs : s.Within text slots) (h : body.Leads text s t) :
          s.Moves text slots t := h.moves hs
      intro w hits s word hs standing
      rw [language, Quantifier.language] at word
      simp only [Leads]
      cases same : quantifier.same with
      | false =>
          rw [same] at word
          obtain ⟨k, allowed, power⟩ := word
          obtain ⟨t, rounds, position⟩ := covers_pow body_covers move k w hits s power hs standing
          exact ⟨t, ⟨k, allowed, rounds⟩, position⟩
      | true =>
          rw [same] at word
          rcases word with ⟨allowed, rfl⟩ | ⟨k, allowed, u, unit, rfl⟩
          · exact ⟨s, .inl ⟨allowed, rfl⟩, rfl⟩
          · rw [List.replicate_succ, List.flatten_cons] at standing ⊢
            obtain ⟨t, lead, -, position, after⟩ :=
              body_covers.first_word move unit hs standing
            have spelled : text.extract s.position t.position = u :=
              extract_eq_of_isPrefix (append_isPrefix_iff.1 standing).1 position
            have copies : Reads text
                (List.replicate k (text.extract s.position t.position)).flatten t
                (t.advance (List.replicate k u).flatten.length) := by
              rw [spelled]
              exact ⟨after, rfl⟩
            refine ⟨_, .inr ⟨k, t, allowed, lead, copies⟩, ?_⟩
            rw [List.length_append, ← Nat.add_assoc, ← position]
            rfl
  | seq tag children ih =>
      obtain ⟨-, below⟩ := forall_mem_nodes.1 good
      exact covers_product fun n hn => ih n hn (below n hn)
  | alt tag children ih =>
      obtain ⟨-, below⟩ := forall_mem_nodes.1 good
      intro w hits s word hs standing
      obtain ⟨n, hn, word⟩ := mem_sum.1 word
      obtain ⟨t, lead, position⟩ := ih n hn (below n hn) w hits s word hs standing
      exact ⟨t, leadsAmong_iff.2 ⟨n, hn, lead⟩, position⟩
  | group tag body ih =>
      obtain ⟨-, below⟩ := forall_mem_nodes.1 good
      exact ih (below body (List.mem_singleton_self body))
  | capture tag index name body ih =>
      obtain ⟨⟨own, -⟩, below⟩ := forall_mem_nodes.1 good
      have body_covers := ih (below body (List.mem_singleton_self body))
      intro w hits s word hs standing
      obtain ⟨t, lead, position⟩ := body_covers w hits s word hs standing
      have slot : index < t.captures.length := (lead.moves hs).within.slots ▸ own.slot index rfl
      exact ⟨_, ⟨t, lead, slot, rfl⟩, position⟩
  | backref tag target index body _ =>
      obtain ⟨-, excluded⟩ := good _ (self_mem_nodes _)
      cases excluded

end Node

end

/-- The matcher decides the language of a tree without back references. -/
theorem Pattern.WellFormed.isMatch_iff_mem_language {p : Pattern} (hp : p.WellFormed)
    (plain : ∀ n ∈ p.root.nodes, n.referred? = none) (w : List Char) :
    p.isMatch w = true ↔ w ∈ p.root.language := by
  have within := MatchState.within_start w p.captureCount
  rw [hp.isMatch_iff]
  constructor
  · rintro ⟨t, lead, position⟩
    have word := lead.extract_mem_language within plain
    rw [position] at word
    simpa [MatchState.start] using word
  · intro word
    have good : ∀ n ∈ p.root.nodes, n.Fits (p.captureCount + 1) ∧ n.referred? = none :=
      fun n hn => ⟨hp.fits hn, plain n hn⟩
    obtain ⟨t, lead, position⟩ := Node.covers_language good w 0 _ word within List.prefix_rfl
    exact ⟨t, lead, by simpa [MatchState.start] using position⟩

end PatternSampler
