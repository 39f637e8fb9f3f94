import PatternSampler.Proofs.Grammar.Escapes
import PatternSampler.Proofs.Grammar.Listing

/-!
# How a class is read

Where an item of a class ends, and which item it is, depends on what follows: digits go on an
escape, a hyphen makes a range unless the class ends behind it, and a bracket with a colon may
begin a name.  So the rules here carry the text that is left.  They read a class in one way
only, the way of the scanner, and what the class accepts is what its items cover.
-/

namespace PatternSampler.Grammar

inductive CharAt : List Char → Char → List Char → Prop
  | plain {c : Char} (unescaped : c ≠ '\\') (rest : List Char) : CharAt (c :: rest) c rest
  | escaped {w rest : List Char} {c : Char} (escape : Escape w c) (stops : Stops w rest) :
      CharAt ('\\' :: (w ++ rest)) c rest

def NameAhead (text : List Char) : Prop :=
  ∃ name rest, name ≠ [] ∧ (∀ c ∈ name, c.isAlpha = true) ∧
    text = '[' :: ':' :: name ++ ':' :: ']' :: rest

def HyphenAhead (text : List Char) : Prop := ∃ c rest, text = '-' :: c :: rest ∧ c ≠ ']'

inductive ListingAt : List Char → Listing → List Char → Prop
  | named (n : ClassName) (rest : List Char) :
      ListingAt ('[' :: ':' :: n.text.toList ++ ':' :: ']' :: rest) (.named n) rest
  | shorthand (s : Shorthand) (negated : Bool) (rest : List Char) :
      ListingAt ('\\' :: s.letter negated :: rest) (.shorthand s negated) rest
  | range {text tail rest : List Char} {lo hi : Char} (unnamed : ¬NameAhead text)
      (low : CharAt text lo ('-' :: tail)) (hyphen : HyphenAhead ('-' :: tail))
      (high : CharAt tail hi rest) : ListingAt text (.range lo hi) rest
  | char {text rest : List Char} {c : Char} (unnamed : ¬NameAhead text)
      (single : CharAt text c rest) (noHyphen : ¬HyphenAhead rest) : ListingAt text (.char c) rest

/-- The items up to the closing bracket.  One that comes `first` does not close the class. -/
inductive ListingsAt : (first : Bool) → List Char → List Listing → List Char → Prop
  | close (rest : List Char) : ListingsAt false (']' :: rest) [] rest
  | item {first : Bool} {text mid rest : List Char} {i : Listing} {items : List Listing}
      (goesOn : text.head? = some ']' → first = true) (one : ListingAt text i mid)
      (others : ListingsAt false mid items rest) : ListingsAt first text (i :: items) rest

inductive BracketAt : List Char → (negated : Bool) → List Listing → List Char → Prop
  | plain {text rest : List Char} {items : List Listing} (positive : text.head? ≠ some '^')
      (body : ListingsAt true text items rest) : BracketAt ('[' :: text) false items rest
  | negated {text rest : List Char} {items : List Listing}
      (body : ListingsAt true text items rest) : BracketAt ('[' :: '^' :: text) true items rest

variable {text rest cs : List Char} {c : Char} {n : Nat} {i : Listing} {items : List Listing}
  {first negated : Bool}

theorem CharAt.length_lt (h : CharAt text c rest) : rest.length < text.length := by
  cases h <;> simp

theorem escapedChar_letter (s : Shorthand) (negated : Bool) (rest : List Char) :
    escapedChar (s.letter negated :: rest) = .ok none := by
  cases s <;> cases negated <;> rfl

theorem not_shorthand_of_escapedChar (h : escapedChar text = .ok (some (c, n))) :
    text.head?.bind CharClass.shorthand? = none := by
  cases text with
  | nil => rfl
  | cons d rest =>
      cases known : CharClass.shorthand? d with
      | none => simpa using known
      | some members =>
          obtain ⟨s, negated, rfl⟩ := Shorthand.exists_letter known
          simp [escapedChar_letter] at h

theorem CharAt.scan (h : CharAt text c rest) :
    ∃ w, text = w ++ rest ∧ scanClassAtom text = .ok (.char c, w.length) := by
  cases h with
  | plain unescaped => exact ⟨[c], rfl, scanClassAtom_char unescaped rest⟩
  | @escaped w _ _ escape stops =>
      have spelled := escapedChar_of_escape escape stops
      refine ⟨'\\' :: w, rfl, ?_⟩
      rw [scanClassAtom_escape, not_shorthand_of_escapedChar spelled, spelled]
      rfl

theorem CharAt.unique {d : Char} {rest' : List Char} (h : CharAt text c rest)
    (h' : CharAt text d rest') : c = d ∧ rest = rest' := by
  obtain ⟨v, own, scanned⟩ := h.scan
  obtain ⟨w, own', scanned'⟩ := h'.scan
  obtain ⟨same, length⟩ : c = d ∧ v.length = w.length := by
    simpa [scanned] using scanned'
  exact ⟨same, (List.append_inj (own.symm.trans own') length).2⟩

theorem charAt_of_scanClassAtom (h : scanClassAtom text = .ok (.char c, n)) :
    CharAt text c (text.drop n) := by
  unfold scanClassAtom at h
  split at h
  · cases h
  · split at h
    · cases h
    · split at h
      · cases h
      · rename_i spelled
        cases h
        obtain ⟨w, rest, rfl, rfl, escape⟩ := begins_escape spelled
        rw [List.drop_succ_cons, List.drop_left]
        exact .escaped escape (stops_of_escapedChar spelled)
      · cases h
  · rename_i unescaped
    cases h
    exact .plain (fun same => unescaped same) _

theorem ListingAt.length_lt (h : ListingAt text i rest) : rest.length < text.length := by
  cases h with
  | named => simp; omega
  | shorthand => simp
  | range _ low _ high =>
      have first := low.length_lt
      have second := high.length_lt
      simp only [List.length_cons] at first
      omega
  | char _ single => exact single.length_lt

theorem nameAhead_iff : NameAhead text ↔ ∃ name, className? text = some name := by
  simp only [className?_eq_some, NameAhead, exists_and_left]

theorem not_nameAhead_iff : ¬NameAhead text ↔ className? text = none := by
  simp [nameAhead_iff, Option.eq_none_iff_forall_ne_some]

theorem className?_text (n : ClassName) (rest : List Char) :
    className? ('[' :: ':' :: n.text.toList ++ ':' :: ']' :: rest) = some n.text.toList :=
  className?_eq_some.2 ⟨n.text_ne_nil, n.isAlpha_of_mem_text, rest, rfl⟩

theorem nameAhead_text (n : ClassName) (rest : List Char) :
    NameAhead ('[' :: ':' :: n.text.toList ++ ':' :: ']' :: rest) :=
  nameAhead_iff.2 ⟨_, className?_text n rest⟩

theorem scanClassAtom_letter (s : Shorthand) (negated : Bool) (rest : List Char) :
    scanClassAtom ('\\' :: s.letter negated :: rest) = .ok (.set (s.members negated), 2) := by
  simp [scanClassAtom_escape, s.shorthand?_letter]

theorem not_charAt_letter {s : Shorthand} {after : List Char} :
    ¬CharAt ('\\' :: s.letter negated :: after) c rest := by
  intro spelled
  obtain ⟨w, -, scanned⟩ := spelled.scan
  simp [scanClassAtom_letter] at scanned

theorem scanRangeEnd_of_noHyphen {lo : Char} {length : Nat} (noHyphen : ¬HyphenAhead rest) :
    scanRangeEnd lo length rest = .ok (.span lo lo, length) := by
  unfold scanRangeEnd
  split
  · rename_i d tail
    have last : d = ']' := by
      by_contra open_
      exact noHyphen ⟨d, tail, rfl, open_⟩
    rw [if_pos last]
  · rfl

theorem ListingAt.scan (h : ListingAt text i rest) :
    ∃ w, text = w ++ rest ∧ scanClassItem text = .ok (i.item, w.length) := by
  cases h with
  | named n rest =>
      refine ⟨'[' :: ':' :: n.text.toList ++ [':', ']'], by simp, ?_⟩
      rw [scanClassItem, className?_text]
      simp [n.named?_text, Listing.item]
  | shorthand s negated rest =>
      refine ⟨['\\', s.letter negated], rfl, ?_⟩
      have unnamed : className? ('\\' :: s.letter negated :: rest) = none := rfl
      rw [scanClassItem, unnamed, scanClassAtom_letter]
      rfl
  | @range _ tail _ lo hi unnamed low hyphen high =>
      obtain ⟨v, rfl, first⟩ := low.scan
      obtain ⟨w, rfl, second⟩ := high.scan
      obtain ⟨d, others, same, open_⟩ := hyphen
      obtain ⟨-, starts⟩ := List.cons.inj same
      refine ⟨v ++ '-' :: w, by simp, ?_⟩
      rw [scanClassItem_of_char (not_nameAhead_iff.1 unnamed) first, List.drop_left, starts,
        scanRangeEnd_range open_, ← starts, second]
      simp [Listing.item]
      omega
  | char unnamed single noHyphen =>
      obtain ⟨w, rfl, scanned⟩ := single.scan
      refine ⟨w, rfl, ?_⟩
      rw [scanClassItem_of_char (not_nameAhead_iff.1 unnamed) scanned, List.drop_left]
      exact scanRangeEnd_of_noHyphen noHyphen

theorem ListingAt.unique {j : Listing} {rest' : List Char} (h : ListingAt text i rest)
    (h' : ListingAt text j rest') : i = j ∧ rest = rest' := by
  cases h with
  | named n rest =>
      have name := className?_text n rest
      generalize starts : '[' :: ':' :: n.text.toList ++ ':' :: ']' :: rest = text at name h'
      cases h' with
      | named m =>
          rw [className?_text] at name
          obtain rfl : m = n := by simpa [String.toList_inj, ClassName.text_inj] using name
          simpa using starts
      | shorthand => cases starts
      | range unnamed | char unnamed => exact absurd (nameAhead_iff.2 ⟨_, name⟩) unnamed
  | shorthand s negated rest =>
      generalize starts : '\\' :: s.letter negated :: rest = text at h'
      cases h' with
      | named => cases starts
      | shorthand t => simpa [Shorthand.letter_inj, and_assoc] using starts
      | range _ low | char _ low =>
          subst starts
          exact (not_charAt_letter low).elim
  | range unnamed low hyphen high =>
      cases h' with
      | named n => exact absurd (nameAhead_text n rest') unnamed
      | shorthand => exact (not_charAt_letter low).elim
      | range _ low' _ high' =>
          obtain ⟨rfl, behind⟩ := low.unique low'
          cases behind
          simpa using high.unique high'
      | char _ single noHyphen =>
          obtain ⟨-, rfl⟩ := low.unique single
          exact (noHyphen hyphen).elim
  | char unnamed single noHyphen =>
      cases h' with
      | named n => exact absurd (nameAhead_text n rest') unnamed
      | shorthand => exact (not_charAt_letter single).elim
      | range _ low hyphen =>
          obtain ⟨-, rfl⟩ := single.unique low
          exact (noHyphen hyphen).elim
      | char _ single' => simpa using single.unique single'

theorem listingAt_of_scanRangeEnd {lo : Char} {length : Nat} {item : ClassItem}
    (unnamed : ¬NameAhead text) (low : CharAt text lo (text.drop length))
    (h : scanRangeEnd lo length (text.drop length) = .ok (item, n)) :
    ∃ i, ListingAt text i (text.drop n) := by
  by_cases hyphen : HyphenAhead (text.drop length)
  · obtain ⟨d, others, starts, open_⟩ := hyphen
    rw [starts, scanRangeEnd_range open_] at h
    split at h
    · cases h
    · cases h
    · rename_i hi more second
      cases h
      have left : text.drop (length + 1 + more) = (d :: others).drop more := by
        rw [← List.drop_drop, ← List.drop_drop, starts]
        rfl
      have high := charAt_of_scanClassAtom second
      rw [starts] at low
      rw [left]
      exact ⟨.range lo hi, .range unnamed low ⟨d, others, rfl, open_⟩ high⟩
  · rw [scanRangeEnd_of_noHyphen hyphen] at h
    cases h
    exact ⟨.char lo, .char unnamed low hyphen⟩

theorem listingAt_of_scanClassItem {item : ClassItem} (h : scanClassItem text = .ok (item, n)) :
    ∃ i, ListingAt text i (text.drop n) := by
  cases name : className? text with
  | some chars =>
      obtain ⟨-, -, rest, rfl⟩ := className?_eq_some.1 name
      rw [scanClassItem, name] at h
      dsimp only at h
      split at h
      · rename_i known
        cases h
        obtain ⟨n, same⟩ := ClassName.exists_text known
        obtain rfl : chars = n.text.toList := by simp [same]
        exact ⟨.named n, by simpa using ListingAt.named n rest⟩
      · cases h
  | none =>
      cases atom : scanClassAtom text with
      | error e => simp [scanClassItem, name, atom] at h
      | ok scanned =>
          obtain ⟨lo | members, length⟩ := scanned
          · have low := charAt_of_scanClassAtom atom
            rw [scanClassItem_of_char name atom] at h
            exact listingAt_of_scanRangeEnd (not_nameAhead_iff.2 name) low h
          · rw [scanClassItem, name, atom] at h
            cases h
            obtain ⟨_, rest, rfl, rfl, d, rfl, known⟩ := begins_shorthand atom
            obtain ⟨s, negated, rfl⟩ := Shorthand.exists_letter known
            exact ⟨.shorthand s negated, .shorthand s negated rest⟩

theorem scanClassBody_skip (position : Nat) (first : Bool) (w rest : List Char) :
    scanClassBody position first w.length (w ++ rest) =
      scanClassBody (position + w.length) first 0 rest := by
  induction w generalizing position with
  | nil => rfl
  | cons c w ih =>
      rw [List.cons_append, List.length_cons, scanClassBody, ih]
      congr 1
      omega

theorem ListingsAt.unique {items' : List Listing} {rest' : List Char}
    (h : ListingsAt first text items rest) (h' : ListingsAt first text items' rest') :
    items = items' ∧ rest = rest' := by
  induction h generalizing items' with
  | close rest =>
      cases h' with
      | close => exact ⟨rfl, rfl⟩
      | item goesOn => simp at goesOn
  | item goesOn one others ih =>
      cases h' with
      | close => simp at goesOn
      | item _ one' others' =>
          obtain ⟨rfl, rfl⟩ := one.unique one'
          simpa using ih others'

theorem ListingsAt.scan (h : ListingsAt first text items rest) : ∃ w, text = w ++ rest ∧
    ∀ position, ((scanClassBody position first 0 text).items.map Prod.snd =
      items.map Listing.item) ∧
      (scanClassBody position first 0 text).ending = .ok (position + w.length) := by
  induction h with
  | close rest => exact ⟨[']'], rfl, fun position => ⟨rfl, rfl⟩⟩
  | @item first text mid rest i items goesOn one others ih =>
      obtain ⟨v, rfl, scanned⟩ := one.scan
      obtain ⟨w, rfl, body⟩ := ih
      refine ⟨v ++ w, by simp, fun position => ?_⟩
      cases v with
      | nil => simpa using one.length_lt
      | cons d v =>
          have more : ¬(d = ']' ∧ first = false) := by
            rintro ⟨rfl, later⟩
            simp [later] at goesOn
          -- the scanner steps over the rest of the item before it reads the next one
          have skipped := scanClassBody_skip (position + 1) false v (w ++ rest)
          obtain ⟨entries, ending⟩ := body (position + 1 + v.length)
          simp only [List.cons_append] at scanned ⊢
          simp only [scanClassBody, if_neg more, scanned, List.length_cons, Nat.add_sub_cancel,
            skipped, List.map_cons, entries, ending]
          simp
          omega

theorem listingsAt_of_scanClassBody {position skip stop : Nat}
    (h : (scanClassBody position first skip cs).ending = .ok stop) :
    ∃ items rest, ListingsAt first (cs.drop skip) items rest := by
  induction cs generalizing position first skip with
  | nil => cases h
  | cons d cs ih =>
      cases skip with
      | succ skip => exact ih h
      | zero =>
          unfold scanClassBody at h
          split at h
          · rename_i closes
            obtain ⟨rfl, rfl⟩ := closes
            exact ⟨[], cs, .close cs⟩
          · rename_i more
            split at h
            · cases h
            · rename_i item n scanned
              obtain ⟨items, rest, others⟩ := ih h
              obtain ⟨i, one⟩ := listingAt_of_scanClassItem scanned
              have goesOn : (d :: cs).head? = some ']' → first = true := by simpa using more
              cases n with
              | zero => simpa using one.length_lt
              | succ n => exact ⟨i :: items, rest, .item goesOn one others⟩

def readClass (negated : Bool) (start : Nat) (text : List Char) :
    Except PatternError (CharClass × Nat) := do
  let body := scanClassBody start true 0 text
  let members ← (CharClass.ofPolarity negated).insertItems body.items
  let length ← body.ending
  pure (members, length)

theorem scanClass_negated (text : List Char) :
    scanClass ('[' :: '^' :: text) = readClass true 2 text := rfl

theorem scanClass_plain (positive : text.head? ≠ some '^') :
    scanClass ('[' :: text) = readClass false 1 text := by
  have second : (('[' :: text)[1]? == some '^') = false := by
    simpa [List.head?_eq_getElem?] using positive
  simp only [scanClass, second]
  rfl

variable {members : CharClass} {start : Nat}

theorem readClass_eq_ok : readClass negated start text = .ok (members, n) ↔
    listed negated ((scanClassBody start true 0 text).items.map Prod.snd) = .ok members ∧
      (scanClassBody start true 0 text).ending = .ok n := by
  simp only [readClass, bind_eq_ok, insertItems_eq_ok, listed]
  constructor
  · rintro ⟨inserted, taken, stop, ending, result⟩
    cases result
    exact ⟨taken, ending⟩
  · rintro ⟨taken, ending⟩
    exact ⟨members, taken, n, ending, rfl⟩

theorem ListingsAt.listed_of_readClass (h : ListingsAt true text items rest)
    (accepted : readClass negated start text = .ok (members, n)) :
    listed negated (items.map Listing.item) = .ok members ∧
      ∃ w, text = w ++ rest ∧ n = start + w.length := by
  obtain ⟨w, own, scanned⟩ := h.scan
  obtain ⟨entries, ending⟩ := scanned start
  rw [readClass_eq_ok, entries, ending] at accepted
  obtain ⟨built, stop⟩ := accepted
  cases stop
  exact ⟨built, w, own, rfl⟩

theorem BracketAt.listed_of_scanClass (h : BracketAt text negated items rest)
    (accepted : scanClass text = .ok (members, n)) :
    listed negated (items.map Listing.item) = .ok members ∧ text.drop n = rest := by
  cases h with
  | plain positive body =>
      rw [scanClass_plain positive] at accepted
      obtain ⟨built, w, rfl, rfl⟩ := body.listed_of_readClass accepted
      exact ⟨built, by simp [Nat.add_comm]⟩
  | negated body =>
      rw [scanClass_negated] at accepted
      obtain ⟨built, w, rfl, rfl⟩ := body.listed_of_readClass accepted
      exact ⟨built, by simp [Nat.add_comm]⟩

theorem bracketAt_of_scanClass (accepted : scanClass ('[' :: text) = .ok (members, n)) :
    ∃ negated items rest, BracketAt ('[' :: text) negated items rest := by
  by_cases caret : text.head? = some '^'
  · obtain ⟨text, rfl⟩ := List.head?_eq_some_iff.1 caret
    rw [scanClass_negated, readClass_eq_ok] at accepted
    obtain ⟨items, rest, body⟩ := listingsAt_of_scanClassBody accepted.2
    exact ⟨true, items, rest, .negated body⟩
  · rw [scanClass_plain caret, readClass_eq_ok] at accepted
    obtain ⟨items, rest, body⟩ := listingsAt_of_scanClassBody accepted.2
    exact ⟨false, items, rest, .plain caret body⟩

theorem BracketAt.unique {negated' : Bool} {items' : List Listing} {rest' : List Char}
    (h : BracketAt text negated items rest) (h' : BracketAt text negated' items' rest') :
    negated' = negated ∧ items' = items ∧ rest' = rest := by
  cases h with
  | plain positive body =>
      cases h' with
      | plain _ body' => exact ⟨rfl, body'.unique body⟩
      | negated => simp at positive
  | negated body =>
      cases h' with
      | plain positive => simp at positive
      | negated body' => exact ⟨rfl, body'.unique body⟩

/-- A class that the scanner accepts can be read in one way, and the scanner stops where the
reading does.  The class accepts what its items cover, or all the rest if it is negated, and it
draws from ASCII exactly when no character that it names lies above. -/
theorem class_means_items (accepted : scanClass ('[' :: text) = .ok (members, n)) :
    ∃ negated items rest, BracketAt ('[' :: text) negated items rest ∧
      (∀ negated' items' rest', BracketAt ('[' :: text) negated' items' rest' →
        negated' = negated ∧ items' = items ∧ rest' = rest) ∧
      ('[' :: text).drop n = rest ∧
      (∀ ch, members.contains ch = true ↔ Xor (∃ i ∈ items, i.Covers ch) (negated = true)) ∧
      (members.alphabet = .ascii ↔ ∀ i ∈ items, ∀ c ∈ i.chars, c.toNat ≤ 0x7F) ∧
      (members.alphabet = .bmp ↔ ∃ i ∈ items, ∃ c ∈ i.chars, 0x7F < c.toNat) := by
  obtain ⟨negated, items, rest, reading⟩ := bracketAt_of_scanClass accepted
  obtain ⟨built, left⟩ := reading.listed_of_scanClass accepted
  have plane := Listing.alphabet_listed built
  have ascii : members.alphabet = .ascii ↔ ¬members.alphabet = .bmp := by
    cases members.alphabet <;> simp
  refine ⟨negated, items, rest, reading, fun _ _ _ => reading.unique, left,
    Listing.contains_listed built, ?_, plane⟩
  rw [ascii, plane]
  simp

/-- The first bracket and the last hyphen stand for themselves.  The class grows behind an item
that reaches above both alphabets, and in the end it accepts digits only. -/
theorem class_means_items_growing : ∃ members,
    scanClass ['[', '^', ']', '\\', 'D', 'é', '-', ']', 'x'] = .ok (members, 8) ∧
      members.alphabet = .bmp ∧ members.contains '5' = true ∧
      members.contains (Char.ofNat 0x1F600) = false := by
  obtain ⟨members, accepted⟩ : ∃ members,
      scanClass ['[', '^', ']', '\\', 'D', 'é', '-', ']', 'x'] = .ok (members, 8) := ⟨_, rfl⟩
  obtain ⟨negated, items, rest, reading, only, -, accepts, -, plane⟩ := class_means_items accepted
  have listed : BracketAt ['[', '^', ']', '\\', 'D', 'é', '-', ']', 'x'] true
      [.char ']', .shorthand .digit true, .char 'é', .char '-'] ['x'] := by
    refine .negated (.item (by simp) (.char (not_nameAhead_iff.2 rfl) (.plain (by decide) _) ?_)
      (.item (by simp) (.shorthand .digit true _)
      (.item (by simp) (.char (not_nameAhead_iff.2 rfl) (.plain (by decide) _) ?_)
      (.item (by simp) (.char (not_nameAhead_iff.2 rfl) (.plain (by decide) _) ?_) (.close _)))))
    all_goals simp [HyphenAhead]
  obtain ⟨rfl, rfl, -⟩ := only _ _ _ listed
  refine ⟨members, accepted, plane.2 ⟨.char 'é', by simp, 'é', by simp [Listing.chars], by decide⟩,
    ?_, ?_⟩
  · rw [accepts]
    simp [Listing.Covers, Shorthand.base, Xor]
  · rw [← Bool.not_eq_true, accepts]
    simp [Listing.Covers, Shorthand.base, Xor]

end PatternSampler.Grammar
