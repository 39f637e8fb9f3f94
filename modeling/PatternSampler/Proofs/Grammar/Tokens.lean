import PatternSampler.Proofs.CharClass.Algebra
import PatternSampler.Proofs.Grammar.Basic
import PatternSampler.Proofs.Token.Locality
import PatternSampler.Proofs.Token.Writing

/-!
# How tokens are spelled

A scanner looks ahead as far as it likes, but what it takes at the start of a text is spelled
by a rule of the grammar.  So a text that is cut into sound tokens is the concatenation of their
spellings: no character is left out and none belongs to two tokens.
-/

namespace PatternSampler.Grammar

def Begins (P : List Char → Prop) (cs : List Char) (n : Nat) : Prop :=
  ∃ w rest, cs = w ++ rest ∧ w.length = n ∧ P w

theorem Begins.imp {P Q : List Char → Prop} {cs : List Char} {n : Nat} (h : Begins P cs n)
    (imp : ∀ w, P w → Q w) : Begins Q cs n :=
  let ⟨w, rest, text, length, hw⟩ := h
  ⟨w, rest, text, length, imp w hw⟩

theorem Begins.cons {P : List Char → Prop} {c : Char} {cs skipped rest : List Char} {n : Nat}
    (h : Begins P (c :: cs) n) (some : 1 ≤ n) (text : cs = skipped ++ rest)
    (length : skipped.length = n - 1) : P (c :: skipped) := by
  obtain ⟨w, after, whole, rfl, hw⟩ := h
  cases w with
  | nil => cases some
  | cons d w =>
      obtain ⟨rfl, same⟩ := List.cons.inj whole
      obtain ⟨rfl, -⟩ := List.append_inj (text.symm.trans same) length
      exact hw

inductive Spells : List Char → Token → Prop
  | literal {w : List Char} {c : Char} (h : Literal w c) : Spells w (.literal c)
  | marker : Spells marker .marker
  | set {w : List Char} {members : CharClass} (h : ClassText w members) : Spells w (.set members)
  | guid : Spells ['[', ':', 'g', 'u', 'i', 'd', ':', ']'] .guid
  | anchor {c : Char} (h : c = '^' ∨ c = '$') : Spells [c] .anchor
  | group : Spells ['(', '?', ':'] (.opening .plain)
  | capture {v : List Char} {name : Option String} (naming : Naming v name) :
      Spells ('(' :: v) (.opening (.capturing name))
  | closing : Spells [')'] .closing
  | bar : Spells ['|'] .bar
  | quantifier {w : List Char} {q : Quantifier} (bounds : Bounds w q) (isLazy : Bool) :
      Spells (w ++ optionally isLazy ['?']) (.quantifier (.ok q))
  | numbered (d : Char) : Spells ['\\', d] (.reference (.number d))
  | named (name : List Char) :
      Spells ('\\' :: 'k' :: '<' :: name ++ ['>']) (.reference (.name name))

theorem Numeral.append {base n : Nat} {w ds : List Char} {values : List Nat}
    (h : Numeral base w n) (read : ds.mapM (digitOf? base) = some values) :
    Numeral base (w ++ ds) (values.foldl (fun value d => value * base + d) n) := by
  induction ds generalizing w n values with
  | nil =>
      cases read
      rwa [List.append_nil]
  | cons c ds ih =>
      simp only [List.mapM_cons, Option.bind_eq_bind, Option.bind_eq_some_iff] at read
      obtain ⟨d, digit, others, read, taken⟩ := read
      cases taken
      rw [List.append_cons, List.foldl_cons]
      exact ih (h.snoc digit) read

theorem numeral_of_mapM {base : Nat} {ds : List Char} {values : List Nat}
    (read : ds.mapM (digitOf? base) = some values) : Numeral base ds (numberOf base values) :=
  Numeral.nil.append read

theorem mapM_digitOf? {ds : List Char} (digits : ∀ c ∈ ds, c.isDigit = true) :
    ds.mapM (digitOf? 10) = some (ds.filterMap (digitOf? 10)) := by
  induction ds with
  | nil => rfl
  | cons c ds ih =>
      obtain ⟨digit, others⟩ := List.forall_mem_cons.1 digits
      have value := digitOf?_of_isDigit digit
      rw [List.mapM_cons, List.filterMap_cons_some value, value, ih others]
      rfl

theorem count_of_repeatCount {position n : Nat} {ds : List Char} (some : ds ≠ [])
    (digits : ∀ c ∈ ds, c.isDigit = true) (h : repeatCount position ds = .ok n) : Count ds n where
  some := some
  numeral := by
    unfold repeatCount at h
    dsimp only at h
    split at h
    · cases h
    · cases h
      exact numeral_of_mapM (mapM_digitOf? digits)
  le := le_of_repeatCount h

theorem begins_numeral {base count : Nat} {cs : List Char} {c : Char}
    (h : codePointEscape base count cs = .ok c) : Begins (Numeral base · c.toNat) cs count := by
  have inside := le_of_codePointEscape h
  refine ⟨cs.take count, cs.drop count, (List.take_append_drop _ _).symm,
    List.length_take_of_le inside, ?_⟩
  unfold codePointEscape at h
  split at h
  · cases h
  · rename_i values read
    split at h
    · cases h
    · split at h
      · cases h
      · rename_i found
        cases h
        rw [toNat_of_charOf? found]
        exact numeral_of_mapM read

theorem eq_ok_of_spelled {x : Except Flaw Char} {c : Char} {length n : Nat}
    (h : x.map (fun c => some (c, length)) = .ok (some (c, n))) : x = .ok c ∧ length = n := by
  cases x with
  | error e => cases h
  | ok found =>
      cases h
      exact ⟨rfl, rfl⟩

theorem begins_of_codePoint {base count length n : Nat} {d c : Char} {rest : List Char}
    (h : (codePointEscape base count rest).map (fun c => some (c, length)) = .ok (some (c, n)))
    (counts : length = count + 1)
    (rule : ∀ {ds : List Char} {c : Char}, ds.length = count → Numeral base ds c.toNat →
      Escape (d :: ds) c) :
    Begins (Escape · c) (d :: rest) n := by
  obtain ⟨code, rfl⟩ := eq_ok_of_spelled h
  obtain ⟨ds, after, rfl, digits, numeral⟩ := begins_numeral code
  exact ⟨d :: ds, after, rfl, by rw [List.length_cons, digits, counts], rule digits numeral⟩

theorem begins_escape {cs : List Char} {c : Char} {n : Nat}
    (h : escapedChar cs = .ok (some (c, n))) : Begins (Escape · c) cs n := by
  unfold escapedChar at h
  split at h
  · cases h
  rename_i d rest
  split at h
  · rename_i control known
    cases h
    exact ⟨[d], rest, rfl, rfl, .control known⟩
  split at h
  · rename_i letter
    subst letter
    exact begins_of_codePoint h rfl .hex
  split at h
  · rename_i letter
    subst letter
    exact begins_of_codePoint h rfl .unicode
  split at h
  · rename_i letter
    subst letter
    have few := (List.takeWhile_prefix (l := rest.take 3)
      fun d => (digitOf? 8 d).isSome).length_le.trans (List.length_take_le 3 rest)
    exact begins_of_codePoint h rfl fun digits code => .octal (digits ▸ few) code
  split at h
  · rename_i nonzero digit
    dsimp only at h
    split at h
    · cases h
    rename_i several
    obtain ⟨code, rfl⟩ := eq_ok_of_spelled h
    obtain ⟨ds, after, text, digits, numeral⟩ := begins_numeral code
    refine ⟨ds, after, text, digits, ?_⟩
    rw [← digits] at several
    match ds, text with
    | [], _ => exact absurd (Nat.zero_lt_two) several
    | [_], _ => exact absurd (Nat.lt_succ_self 1) several
    | _ :: _ :: _, text =>
        obtain ⟨rfl, -⟩ := List.cons.inj text
        exact .decimal (List.cons_ne_nil _ _) nonzero numeral
  split at h
  · cases h
  split at h
  · cases h
  rename_i other
  cases h
  exact ⟨[c], rest, rfl, rfl, .itself (Bool.not_eq_true _ ▸ other)⟩

theorem exists_optional (d c : Char) (rest : List Char) :
    ∃ tail, rest = optionally ((d :: rest)[1]? == some c) [c] ++ tail ∧
      (d :: rest).drop (if (d :: rest)[1]? == some c then 2 else 1) = tail ∧
      (if (d :: rest)[1]? == some c then 2 else 1) =
        (optionally ((d :: rest)[1]? == some c) [c]).length + 1 := by
  cases rest with
  | nil => exact ⟨[], rfl, rfl, rfl⟩
  | cons e tail =>
      by_cases same : e = c
      · subst same
        exact ⟨tail, by simp [optionally]⟩
      · exact ⟨e :: tail, by simp [optionally, same]⟩

theorem exists_digits (cs : List Char) :
    ∃ ds rest, cs = ds ++ rest ∧ cs.takeWhile Char.isDigit = ds ∧ cs.drop ds.length = rest ∧
      cs.dropWhile Char.isDigit = rest ∧ ∀ c ∈ ds, c.isDigit = true := by
  have whole := List.takeWhile_append_dropWhile (p := Char.isDigit) (l := cs)
  have digits : ∀ c ∈ cs.takeWhile Char.isDigit, c.isDigit = true := fun c => mem_takeWhile
  generalize cs.takeWhile Char.isDigit = ds at whole digits
  generalize cs.dropWhile Char.isDigit = rest at whole
  exact ⟨ds, rest, whole.symm, rfl, whole ▸ List.drop_left, rfl, digits⟩

theorem begins_bounds {rest : List Char} {q : Quantifier} {n : Nat}
    (h : scanBraces ('\x7b' :: rest) = .ok (q, n)) :
    Begins (Bounds · q) ('\x7b' :: rest) n := by
  obtain ⟨tail, text, dropped, start⟩ := exists_optional '\x7b' '=' rest
  obtain ⟨low, behind, rfl, taken, left, -, digits⟩ := exists_digits tail
  simp only [scanBraces] at h
  rw [← List.drop_drop, dropped, taken, left, start] at h
  clear dropped taken left start
  generalize (('\x7b' :: rest)[1]? == some '=') = same at h text
  subst text
  rw [bind_eq_ok] at h
  obtain ⟨min, counted, h⟩ := h
  split at h
  · obtain ⟨_, thrown, _⟩ := bind_eq_ok.1 h
    cases thrown
  rename_i some
  have lower := count_of_repeatCount (by simpa using some) digits counted
  split at h
  · rename_i others
    obtain ⟨high, after, rfl, taken, -, left, digits⟩ := exists_digits others
    rw [taken, left] at h
    clear taken left
    rw [bind_eq_ok] at h
    obtain ⟨max, counted, h⟩ := h
    split at h
    · rename_i after
      cases h
      refine ⟨_, after, by simp, ?_, .atLeast same lower⟩
      simp
      omega
    · -- Digits stand between the comma and the brace.
      rename_i after unbounded
      split at h
      · obtain ⟨_, thrown, _⟩ := bind_eq_ok.1 h
        cases thrown
      rename_i ordered
      cases h
      have upper := count_of_repeatCount unbounded digits counted
      refine ⟨_, after, by simp, ?_, .between same lower upper (Nat.not_lt.1 ordered)⟩
      simp
      omega
    · cases h
  · rename_i after
    cases h
    refine ⟨_, after, by simp, ?_, .exactly same lower⟩
    simp
    omega
  · cases h

/-! ## Classes -/

theorem begins_classChar {first : Bool} {cs : List Char} {c : Char} {n : Nat}
    (h : scanClassAtom cs = .ok (.char c, n)) (bracket : cs.head? = some ']' → first = true) :
    Begins (ClassChar first · c) cs n := by
  unfold scanClassAtom at h
  split at h
  · cases h
  · split at h
    · cases h
    · split at h
      · cases h
      · rename_i escaped
        cases h
        obtain ⟨w, rest, rfl, rfl, escape⟩ := begins_escape escaped
        exact ⟨'\\' :: w, rest, rfl, rfl, .escaped escape⟩
      · cases h
  · rename_i d rest unescaped
    cases h
    refine ⟨[c], rest, rfl, rfl, .plain unescaped fun same => bracket ?_⟩
    rw [same]
    rfl

theorem begins_shorthand {cs : List Char} {members : CharClass} {n : Nat}
    (h : scanClassAtom cs = .ok (.set members, n)) :
    Begins (fun w => ∃ c, w = ['\\', c] ∧ CharClass.shorthand? c = some members) cs n := by
  unfold scanClassAtom at h
  split at h
  · cases h
  · rename_i rest
    split at h
    · rename_i known
      cases h
      obtain ⟨c, starts, known⟩ := Option.bind_eq_some_iff.1 known
      obtain ⟨rest, rfl⟩ := List.head?_eq_some_iff.1 starts
      exact ⟨['\\', c], rest, rfl, rfl, c, rfl, known⟩
    · split at h <;> cases h
  · cases h

theorem Begins.pos_of_item {first : Bool} {cs : List Char} {item : ClassItem} {n : Nat}
    (h : Begins (Item first · item) cs n) : 1 ≤ n := by
  obtain ⟨w, rest, rfl, rfl, hw⟩ := h
  cases hw with
  | named | shorthand => simp
  | range =>
      rw [List.length_append, List.length_cons]
      omega
  | single char => cases char <;> simp

theorem begins_item {first : Bool} {cs : List Char} {item : ClassItem} {n : Nat}
    {c c' : CharClass} (h : scanClassItem cs = .ok (item, n))
    (bracket : cs.head? = some ']' → first = true) (taken : c.insertItem item = .ok c') :
    Begins (Item first · item) cs n := by
  cases named : className? cs with
  | some name =>
      obtain ⟨-, -, rest, rfl⟩ := className?_eq_some.1 named
      rw [scanClassItem, named] at h
      dsimp only at h
      split at h
      · rename_i known
        cases h
        exact ⟨_, rest, by simp, by simp, .named known⟩
      · cases h
  | none =>
      cases atom : scanClassAtom cs with
      | error e =>
          rw [scanClassItem, named, atom] at h
          cases h
      | ok scanned =>
          obtain ⟨lo | members, length⟩ := scanned
          · rw [scanClassItem_of_char named atom] at h
            obtain ⟨v, rest, rfl, rfl, low⟩ := begins_classChar atom bracket
            rw [List.drop_left] at h
            unfold scanRangeEnd at h
            split at h
            · split at h
              · cases h
                exact ⟨v, _, rfl, rfl, .single low (CharClass.ordered_of_insertRange taken).2⟩
              · rename_i d rest open_
                split at h
                · cases h
                · cases h
                · rename_i hi more second
                  cases h
                  have later : Begins (ClassChar false · hi) (d :: rest) more :=
                    begins_classChar second (by simpa using open_)
                  obtain ⟨w, after, text, rfl, high⟩ := later
                  obtain ⟨ordered, basic⟩ := CharClass.ordered_of_insertRange taken
                  refine ⟨v ++ '-' :: w, after, by simp [text], ?_, .range low high ordered basic⟩
                  simp
                  omega
            · cases h
              exact ⟨v, _, rfl, rfl, .single low (CharClass.ordered_of_insertRange taken).2⟩
          · rw [scanClassItem, named, atom] at h
            cases h
            refine (begins_shorthand atom).imp ?_
            rintro _ ⟨c, rfl, known⟩
            exact .shorthand known

theorem insertItems_eq_ok {c c' : CharClass} {entries : List (Nat × ClassItem)} :
    c.insertItems entries = .ok c' ↔
      (entries.map Prod.snd).foldlM CharClass.insertItem c = .ok c' := by
  induction entries generalizing c with
  | nil => simp [CharClass.insertItems, pure, Except.pure]
  | cons entry entries ih =>
      rw [CharClass.insertItems, List.map_cons, List.foldlM_cons]
      cases c.insertItem entry.2 with
      | error e => simp [Bind.bind, Except.bind]
      | ok next => exact ih

/-- The items up to the closing bracket.  There may be none left, but not if the first one is
still to come. -/
theorem items_of_scanClassBody {position skip stop : Nat} {first : Bool} {cs : List Char}
    {c c' : CharClass} (ending : (scanClassBody position first skip cs).ending = .ok stop)
    (taken : c.insertItems (scanClassBody position first skip cs).items = .ok c') :
    ∃ skipped w rest, cs = skipped ++ w ++ ']' :: rest ∧ skipped.length = skip ∧
      stop = position + (skipped ++ w).length + 1 ∧
      (w = [] ∧ first = false ∧ (scanClassBody position first skip cs).items = [] ∨
        Items first w ((scanClassBody position first skip cs).items.map Prod.snd)) := by
  induction cs generalizing position first skip c with
  | nil => cases ending
  | cons d cs ih =>
      cases skip with
      | succ skip =>
          obtain ⟨skipped, w, rest, rfl, rfl, rfl, items⟩ := ih ending taken
          refine ⟨d :: skipped, w, rest, rfl, rfl, ?_, items⟩
          simp
          omega
      | zero =>
          unfold scanClassBody at ending taken ⊢
          split at ending
          · rename_i closes
            cases ending
            rw [if_pos closes]
            exact ⟨[], [], cs, by rw [closes.1]; rfl, rfl, rfl, .inl ⟨rfl, closes.2, rfl⟩⟩
          · rename_i goesOn
            rw [if_neg goesOn] at taken ⊢
            split at ending
            · cases ending
            · rename_i item n scanned
              simp only [scanned] at taken ⊢
              rw [CharClass.insertItems] at taken
              split at taken
              · rename_i next inserted
                obtain ⟨skipped, w, rest, rfl, length, rfl, items⟩ := ih ending taken
                have bracket : (d :: (skipped ++ w ++ ']' :: rest)).head? = some ']' →
                    first = true := by
                  intro same
                  cases first with
                  | true => rfl
                  | false => exact (goesOn ⟨by simpa using same, rfl⟩).elim
                -- The item owns this character and those that the rest of the reading skips.
                have start := begins_item scanned bracket inserted
                have own := start.cons start.pos_of_item (List.append_assoc _ _ _) length
                refine ⟨[], d :: skipped ++ w, rest, by simp, rfl, by simp; omega, .inr ?_⟩
                rcases items with ⟨rfl, -, none⟩ | items
                · rw [none, List.append_nil]
                  exact .last own
                · exact .cons own items
              · cases taken

theorem begins_bracket {rest : List Char} {members : CharClass} {n : Nat}
    (h : scanClass ('[' :: rest) = .ok (members, n)) :
    Begins (ClassText · members) ('[' :: rest) n := by
  obtain ⟨tail, text, dropped, start⟩ := exists_optional '[' '^' rest
  simp only [scanClass, bind_eq_ok] at h
  rw [dropped, start] at h
  generalize (('[' :: rest)[1]? == some '^') = negated at h text
  subst text
  obtain ⟨inserted, taken, stop, ending, result⟩ := h
  cases result
  obtain ⟨skipped, w, after, rfl, empty, rfl, items⟩ := items_of_scanClassBody ending taken
  obtain rfl := List.eq_nil_of_length_eq_zero empty
  rcases items with ⟨-, first, -⟩ | items
  · cases first
  · refine ⟨_, after, ?_, ?_, .bracket negated items (insertItems_eq_ok.1 taken)⟩
    · simp
    · simp
      omega

/-! ## Tokens -/

theorem begins_lazy {cs : List Char} {q : Quantifier} {n m : Nat} {t : Token}
    (bounds : Begins (Bounds · q) cs n) (h : withLazy cs q n = (t, m)) :
    Begins (Spells · t) cs m := by
  obtain ⟨w, rest, rfl, rfl, bounds⟩ := bounds
  unfold withLazy at h
  cases h
  have next : (w ++ rest)[w.length]? = rest.head? := by
    rw [List.getElem?_append_right (Nat.le_refl _), Nat.sub_self, List.head?_eq_getElem?]
  split
  · rename_i question
    rw [next, beq_iff_eq] at question
    obtain ⟨after, rfl⟩ := List.head?_eq_some_iff.1 question
    exact ⟨_, after, by simp [optionally], by simp [optionally], .quantifier bounds true⟩
  · exact ⟨_, rest, by simp [optionally], by simp [optionally], .quantifier bounds false⟩

theorem begins_opening {rest : List Char} {t : Token} {n : Nat}
    (h : scanOpening ('(' :: rest) = (t, n)) (sound : t.Sound) :
    Begins (Spells · t) ('(' :: rest) n := by
  unfold scanOpening at h
  split at h
  · rename_i after text
    cases text
    cases h
    exact ⟨_, after, rfl, rfl, .group⟩
  · rename_i after text
    cases text
    split at h
    · rename_i name found
      cases h
      obtain ⟨nonempty, chars, tail, rfl⟩ := groupName?_eq_some.1 found
      exact ⟨_, tail, by simp, by simp, .capture (.some nonempty chars)⟩
    · cases h
      exact sound.elim
  · cases h
    exact sound.elim
  · cases h
    exact ⟨_, rest, rfl, rfl, .capture .none⟩

theorem begins_bracketed {rest : List Char} {t : Token} {n : Nat}
    (h : scanBracket ('[' :: rest) = (t, n)) (sound : t.Sound) :
    Begins (Spells · t) ('[' :: rest) n := by
  unfold scanBracket at h
  split at h
  · rename_i name found
    obtain ⟨-, -, tail, text⟩ := className?_eq_some.1 found
    rw [text]
    split at h
    · rename_i guid
      subst guid
      cases h
      exact ⟨_, tail, rfl, rfl, .guid⟩
    · split at h
      · rename_i known
        cases h
        exact ⟨_, tail, by simp, by simp, .set (.named known)⟩
      · cases h
        exact sound.elim
  · split at h
    · rename_i scanned
      cases h
      exact (begins_bracket scanned).imp fun _ => .set
    · cases h
      exact sound.elim

theorem begins_escaped {rest : List Char} {t : Token} {n : Nat} (h : scanEscape rest = (t, n))
    (sound : t.Sound) : Begins (Spells · t) ('\\' :: rest) n := by
  unfold scanEscape at h
  split at h
  · rename_i after
    cases h
    exact ⟨_, after, rfl, rfl, .marker⟩
  · split at h
    · rename_i name found
      cases h
      obtain ⟨-, -, tail, rfl⟩ := groupName?_eq_some.1 found
      exact ⟨_, tail, by simp, by simp, .named name⟩
    · cases h
      exact sound.elim
  · cases h
    exact sound.elim
  · split at h
    · rename_i known
      cases h
      obtain ⟨c, starts, known⟩ := Option.bind_eq_some_iff.1 known
      obtain ⟨after, rfl⟩ := List.head?_eq_some_iff.1 starts
      exact ⟨_, after, rfl, rfl, .set (.shorthand known)⟩
    · split at h
      · cases h
        exact sound.elim
      · rename_i escaped
        cases h
        obtain ⟨w, after, rfl, rfl, escape⟩ := begins_escape escaped
        exact ⟨_, after, rfl, rfl, .literal (.escaped escape)⟩
      · rename_i reserved
        cases h
        cases rest with
        | nil => cases reserved
        | cons d after => exact ⟨_, after, rfl, rfl, .numbered d⟩

theorem begins_token {c : Char} {rest : List Char} {t : Token} {n : Nat}
    (h : scanToken c rest = (t, n)) (sound : t.Sound) : Begins (Spells · t) (c :: rest) n := by
  have first {P : List Char → Prop} (hc : P [c]) : Begins P (c :: rest) 1 :=
    ⟨[c], rest, rfl, rfl, hc⟩
  unfold scanToken at h
  split at h
  · cases h
    exact first (.set .dot)
  · cases h
    exact first (.anchor (.inl rfl))
  · cases h
    exact first (.anchor (.inr rfl))
  · cases h
    exact first .bar
  · exact begins_opening h sound
  · cases h
    exact first .closing
  · exact begins_bracketed h sound
  · cases h
    exact sound.elim
  · exact begins_lazy (first .star) h
  · exact begins_lazy (first .plus) h
  · exact begins_lazy (first .question) h
  · split at h
    · rename_i scanned
      exact begins_lazy (begins_bounds scanned) h
    · cases h
      exact sound.elim
  · exact begins_escaped h sound
  · cases h
    exact first (.literal (.plain (by simp_all [metaChars])))

theorem spells_of_cuts {v u : List Char} {position skip : Nat} {ts : List (Nat × Token)}
    (h : Cuts v position skip u ts) :
    ∃ skipped ws, u = skipped ++ ws.flatten ∧ skipped.length = skip ∧
      List.Forall₂ Spells ws (ts.map Prod.snd) := by
  induction h with
  | done => exact ⟨[], [], rfl, rfl, .nil⟩
  | skip _ ih =>
      obtain ⟨skipped, ws, rfl, rfl, spells⟩ := ih
      exact ⟨_ :: skipped, ws, rfl, rfl, spells⟩
  | @token position n c u t ts scan sound _ ih =>
      obtain ⟨skipped, ws, rfl, length, spells⟩ := ih
      have some : 1 ≤ n := by
        have bounds := bounds_of_scanToken c (skipped ++ ws.flatten ++ v)
        rw [scan] at bounds
        exact bounds.1
      have own := (begins_token scan sound).cons some (List.append_assoc _ _ _) length
      exact ⟨[], (c :: skipped) :: ws, by simp, rfl, .cons own spells⟩

theorem spells_kinds {text : List Char} (sound : ∀ t ∈ kinds text, t.Sound) :
    ∃ ws, text = ws.flatten ∧ List.Forall₂ Spells ws (kinds text) := by
  have cuts : Cuts [] 0 0 text (tokens text) :=
    cuts_of_sound (Nat.zero_le _) fun t ht => sound t.2 (List.mem_map_of_mem ht)
  obtain ⟨skipped, ws, text_eq, empty, spells⟩ := spells_of_cuts cuts
  obtain rfl := List.eq_nil_of_length_eq_zero empty
  exact ⟨ws, text_eq, spells⟩

end PatternSampler.Grammar
