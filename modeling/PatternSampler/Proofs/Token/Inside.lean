import PatternSampler.Proofs.Token.Bounds

/-!
# What escapes and brackets depend on

An escape depends on its own characters and on whether a digit follows, a class on nothing
behind its closing bracket.  So both are scanned alike when what follows them changes.
-/

namespace PatternSampler

/-- What can stand behind a token without becoming part of it. -/
def Apart (rest : List Char) : Prop := ∀ c ∈ rest.head?, c ≠ '?' ∧ c.isDigit = false

theorem apart_cons {c : Char} {rest : List Char} (notLazy : c ≠ '?')
    (notDigit : c.isDigit = false) : Apart (c :: rest) := by
  simpa [Apart] using ⟨notLazy, notDigit⟩

/-- `after` can stand in the place of `rest` behind a token. -/
def Replaces (after rest : List Char) : Prop := after.head? = rest.head? ∨ Apart after

theorem Replaces.not_lazy {after rest : List Char} (h : Replaces after rest)
    (last : rest.head? ≠ some '?') : after.head? ≠ some '?' := by
  rcases h with same | apart
  · rwa [same]
  · intro lazy
    exact (apart '?' lazy).1 rfl

theorem Replaces.not_digit {after rest : List Char} (h : Replaces after rest) {p : Char → Bool}
    (digits : ∀ c, p c = true → c.isDigit = true) (last : ∀ c ∈ rest.head?, p c = false) :
    ∀ c ∈ after.head?, p c = false := by
  intro c hc
  rcases h with same | apart
  · exact last c (same ▸ hc)
  · cases digit : p c with
    | false => rfl
    | true =>
        have := digits c digit
        simp [(apart c hc).2] at this

section

variable {p : Char → Bool} {cs rest : List Char}

theorem takeWhile_append_stop (all : ∀ c ∈ cs, p c = true) (stop : ∀ c ∈ rest.head?, p c = false) :
    (cs ++ rest).takeWhile p = cs := by
  rw [List.takeWhile_append_of_pos all]
  cases rest with
  | nil => simp
  | cons c rest => simp [stop c rfl]

theorem stop_of_takeWhile_append (taken : (cs ++ rest).takeWhile p = cs) :
    (∀ c ∈ cs, p c = true) ∧ ∀ c ∈ rest.head?, p c = false := by
  have all : ∀ c ∈ cs, p c = true := by
    intro c hc
    rw [← taken] at hc
    exact mem_takeWhile hc
  refine ⟨all, ?_⟩
  rw [List.takeWhile_append_of_pos all] at taken
  intro c hc
  cases rest with
  | nil => cases hc
  | cons d rest =>
      cases hc
      cases hp : p c with
      | false => rfl
      | true => simp [hp] at taken

theorem takeWhile_eq_of_length (taken : ((cs ++ rest).takeWhile p).length = cs.length) :
    (cs ++ rest).takeWhile p = cs := by
  have start : (cs ++ rest).takeWhile p <+: cs ++ rest := List.takeWhile_prefix p
  have same := List.prefix_of_prefix_length_le start (List.prefix_append cs rest)
    (Nat.le_of_eq taken)
  exact same.eq_of_length taken

theorem take_append_of_le {count : Nat} (fits : cs.length ≤ count) :
    (cs ++ rest).take count = cs ++ rest.take (count - cs.length) := by
  rw [List.take_append, List.take_of_length_le fits]

theorem takeWhile_take_stop {count : Nat} (all : ∀ c ∈ cs, p c = true) (fits : cs.length ≤ count)
    (stop : cs.length = count ∨ ∀ c ∈ rest.head?, p c = false) :
    ((cs ++ rest).take count).takeWhile p = cs := by
  rw [take_append_of_le fits]
  refine takeWhile_append_stop all fun c hc => ?_
  rw [List.head?_take] at hc
  rcases stop with full | last
  · simp [full] at hc
  · split at hc
    · simp at hc
    · exact last c hc

theorem stop_of_takeWhile_take {count : Nat}
    (taken : (((cs ++ rest).take count).takeWhile p).length = cs.length) :
    (∀ c ∈ cs, p c = true) ∧ cs.length ≤ count ∧
      (cs.length = count ∨ ∀ c ∈ rest.head?, p c = false) := by
  have fits : cs.length ≤ count := by
    rw [← taken]
    exact Nat.le_trans (List.takeWhile_prefix p).length_le (List.length_take_le _ _)
  rw [take_append_of_le fits] at taken
  obtain ⟨all, stop⟩ := stop_of_takeWhile_append (takeWhile_eq_of_length taken)
  refine ⟨all, fits, ?_⟩
  rw [List.head?_take] at stop
  split at stop
  · left
    omega
  · exact .inr stop

theorem takeWhile_append_cons {stop : Char} (stops : p stop = false) (cs rest : List Char) :
    (cs ++ stop :: rest).takeWhile p = cs.takeWhile p := by
  induction cs with
  | nil => simp [stops]
  | cons c cs ih => cases hc : p c <;> simp [hc, ih]

theorem dropWhile_append_cons {stop : Char} (stops : p stop = false) (cs rest : List Char) :
    (cs ++ stop :: rest).dropWhile p = cs.dropWhile p ++ stop :: rest := by
  induction cs with
  | nil => simp [stops]
  | cons c cs ih => cases hc : p c <;> simp [hc, ih]

end

theorem exists_of_append_eq {front own after rest : List Char} {c : Char}
    (h : front ++ c :: after = own ++ rest) (inside : front.length + 1 ≤ own.length) :
    ∃ more, own = front ++ c :: more ∧ after = more ++ rest := by
  rcases List.append_eq_append_iff.1 h with ⟨more, own_eq, more_eq⟩ | ⟨more, front_eq, -⟩
  · cases more with
    | nil =>
        rw [own_eq, List.append_nil] at inside
        omega
    | cons d more =>
        obtain ⟨rfl, rfl⟩ := List.cons.inj more_eq
        exact ⟨more, own_eq, rfl⟩
  · rw [front_eq, List.length_append] at inside
    omega

theorem isDigit_of_digitOf? {base : Nat} {c : Char} (small : base ≤ 10)
    (h : (digitOf? base c).isSome = true) : c.isDigit = true := by
  unfold digitOf? at h
  dsimp only at h
  split at h
  · rename_i decimal
    rw [Char.isDigit, Bool.and_eq_true, decide_eq_true_eq, decide_eq_true_eq]
    exact decimal
  · split at h
    · simp at h
      omega
    · split at h
      · simp at h
        omega
      · simp at h

theorem isDigit_of_octal {c : Char} (h : (digitOf? 8 c).isSome = true) : c.isDigit = true :=
  isDigit_of_digitOf? (by decide) h

theorem codePointEscape_append {base count : Nat} {cs : List Char} (inside : count ≤ cs.length)
    (after rest : List Char) :
    codePointEscape base count (cs ++ after) = codePointEscape base count (cs ++ rest) := by
  simp only [codePointEscape, List.take_append_of_le_length inside]

theorem takeWhile_replaced {p : Char → Bool} (digits : ∀ c, p c = true → c.isDigit = true)
    {w rest after : List Char} (taken : ((w ++ rest).takeWhile p).length = w.length)
    (replaces : Replaces after rest) : (w ++ after).takeWhile p = w := by
  obtain ⟨all, stop⟩ := stop_of_takeWhile_append (takeWhile_eq_of_length taken)
  exact takeWhile_append_stop all (replaces.not_digit digits stop)

theorem takeWhile_take_replaced (count : Nat) {p : Char → Bool}
    (digits : ∀ c, p c = true → c.isDigit = true) {w rest after : List Char}
    (taken : (((w ++ rest).take count).takeWhile p).length = w.length)
    (replaces : Replaces after rest) : ((w ++ after).take count).takeWhile p = w := by
  obtain ⟨all, fits, stop⟩ := stop_of_takeWhile_take taken
  exact takeWhile_take_stop all fits (stop.imp_right fun last => replaces.not_digit digits last)

theorem escapedChar_append {w rest after : List Char} {c : Char}
    (h : escapedChar (w ++ rest) = .ok (some (c, w.length))) (replaces : Replaces after rest) :
    escapedChar (w ++ after) = .ok (some (c, w.length)) := by
  have inside := (bounds_of_escapedChar h).1
  cases w with
  | nil => simp at inside
  | cons d w =>
      rw [List.cons_append] at h ⊢
      cases escapeKind d with
      | hex =>
          rw [escapedChar_hex] at h ⊢
          have length := (spelled_eq_ok h).2
          rw [List.length_cons] at length
          rw [codePointEscape_append (by omega) after rest]
          exact h
      | unicode =>
          rw [escapedChar_unicode] at h ⊢
          have length := (spelled_eq_ok h).2
          rw [List.length_cons] at length
          rw [codePointEscape_append (by omega) after rest]
          exact h
      | octal =>
          rw [escapedChar_octal] at h ⊢
          have length := Nat.succ.inj (spelled_eq_ok h).2
          have run := takeWhile_take_replaced 3 (fun _ => isDigit_of_octal) length replaces
          have run' := takeWhile_take_replaced 3 (fun _ => isDigit_of_octal) length (.inl rfl)
          dsimp only at h ⊢
          rw [run'] at h
          rw [run, codePointEscape_append (Nat.le_refl _) after rest]
          exact h
      | decimal digit nonzero =>
          rw [escapedChar_decimal digit nonzero] at h ⊢
          split at h
          · cases h
          · rename_i several
            have length : ((d :: w ++ rest).takeWhile Char.isDigit).length = (d :: w).length :=
              (spelled_eq_ok h).2
            have run := takeWhile_replaced (fun _ => id) length replaces
            have run' := takeWhile_eq_of_length length
            have same : codePointEscape 10 (d :: w).length (d :: (w ++ after)) =
                codePointEscape 10 (d :: w).length (d :: (w ++ rest)) :=
              codePointEscape_append (Nat.le_refl _) after rest
            simp only [List.cons_append] at run run'
            rw [run'] at h several
            rw [run, if_neg several, same]
            exact h
      | alone result same =>
          rw [same] at h ⊢
          exact h

theorem escapedChar_none_append {d : Char} {rest after : List Char}
    (h : escapedChar (d :: rest) = .ok none) (replaces : Replaces after rest) :
    escapedChar (d :: after) = .ok none := by
  cases escapeKind d with
  | hex | unicode | octal => exact (spelled_ne_none h).elim
  | decimal digit nonzero =>
      rw [escapedChar_decimal digit nonzero] at h ⊢
      split at h
      · -- a lone digit is no code point, and nothing makes it one
        rename_i lone
        have taken : (([d] ++ rest).takeWhile Char.isDigit).length = [d].length := by
          simp only [List.singleton_append, List.takeWhile_cons, digit, if_true,
            List.length_cons, List.length_nil] at lone ⊢
          omega
        have run : (d :: after).takeWhile Char.isDigit = [d] :=
          takeWhile_replaced (fun _ => id) taken replaces
        rw [run]
        rfl
      · exact (spelled_ne_none h).elim
  | alone result same =>
      rw [same] at h ⊢
      exact h

theorem scanClassAtom_escape (rest : List Char) :
    scanClassAtom ('\\' :: rest) = match rest.head?.bind CharClass.shorthand? with
      | some members => .ok (.set members, 2)
      | none => match escapedChar rest with
        | .error flaw => .error ⟨0, flaw⟩
        | .ok (some (c, length)) => .ok (.char c, length + 1)
        | .ok none => .error ⟨0, .unknownEscape (rest.headD '\\')⟩ := rfl

theorem scanClassAtom_char {c : Char} (h : c ≠ '\\') (rest : List Char) :
    scanClassAtom (c :: rest) = .ok (.char c, 1) := by
  unfold scanClassAtom
  split <;> simp_all

theorem scanClassAtom_append {w rest after : List Char} {atom : ClassAtom}
    (h : scanClassAtom (w ++ rest) = .ok (atom, w.length)) (replaces : Replaces after rest) :
    scanClassAtom (w ++ after) = .ok (atom, w.length) := by
  have inside := (bounds_of_scanClassAtom h).1
  cases w with
  | nil => simp at inside
  | cons c w =>
      simp only [List.cons_append] at h ⊢
      by_cases escape : c = '\\'
      · subst escape
        rw [scanClassAtom_escape] at h ⊢
        cases w with
        | nil =>
            -- the backslash alone is too short for an atom
            split at h
            · simp at h
            · split at h
              · cases h
              · rename_i escaped
                have := (bounds_of_escapedChar escaped).1
                simp at h
                omega
              · cases h
        | cons d w =>
            simp only [List.cons_append, List.head?_cons, Option.bind_some] at h ⊢
            split at h
            · exact h
            · split at h
              · cases h
              · rename_i ch n escaped
                obtain ⟨same, length⟩ : ClassAtom.char ch = atom ∧ n = (d :: w).length := by
                  simpa using h
                subst length
                have follows : escapedChar (d :: (w ++ after)) = .ok (some (ch, (d :: w).length)) :=
                  escapedChar_append (w := d :: w) escaped replaces
                rw [follows]
                exact h
              · cases h
      · rw [scanClassAtom_char escape] at h ⊢
        exact h

theorem className?_eq_none {c d : Char} {rest : List Char} (h : ¬(c = '[' ∧ d = ':')) :
    className? (c :: d :: rest) = none := by
  unfold className?
  split
  · rename_i starts
    cases starts
    exact absurd ⟨rfl, rfl⟩ h
  · rfl

theorem className?_append (a rest after : List Char) :
    className? (a ++ ']' :: after) = className? (a ++ ']' :: rest) := by
  have stops : Char.isAlpha ']' = false := by decide
  match a with
  | [] => rfl
  | [c] => rw [List.singleton_append, List.singleton_append, className?_eq_none (by simp),
      className?_eq_none (by simp)]
  | c :: d :: b =>
      simp only [List.cons_append]
      by_cases starts : c = '[' ∧ d = ':'
      · obtain ⟨rfl, rfl⟩ := starts
        simp only [className?, takeWhile_append_cons stops, dropWhile_append_cons stops]
        cases b.takeWhile Char.isAlpha with
        | nil => rfl
        | cons n name =>
            -- what ends the name stands before the bracket or is the bracket
            match b.dropWhile Char.isAlpha with
            | [] => rfl
            | [e] => by_cases colon : e = ':' <;> simp [colon]
            | e :: f :: more =>
                simp only [List.cons_append]
                split <;> split <;> simp_all
      · rw [className?_eq_none starts, className?_eq_none starts]

def scanRangeEnd (lo : Char) (length : Nat) : List Char → Except PatternError (ClassItem × Nat)
  | '-' :: c :: rest =>
      if c = ']' then .ok (.span lo lo, length)
      else match scanClassAtom (c :: rest) with
        | .error e => .error (e.shift (length + 1))
        | .ok (.set _, _) => .error ⟨0, .invalidRange⟩
        | .ok (.char hi, more) => .ok (.span lo hi, length + 1 + more)
  | _ => .ok (.span lo lo, length)

theorem scanClassItem_of_char {cs : List Char} {lo : Char} {length : Nat}
    (unnamed : className? cs = none) (atom : scanClassAtom cs = .ok (.char lo, length)) :
    scanClassItem cs = scanRangeEnd lo length (cs.drop length) := by
  rw [scanClassItem, unnamed, atom]
  rfl

theorem scanRangeEnd_single {lo : Char} {length : Nat} {c d : Char} {rest : List Char}
    (h : ¬(c = '-' ∧ d ≠ ']')) :
    scanRangeEnd lo length (c :: d :: rest) = .ok (.span lo lo, length) := by
  unfold scanRangeEnd
  split
  · rename_i starts
    cases starts
    rw [if_pos (by simpa using h)]
  · rfl

theorem scanRangeEnd_range {lo : Char} {length : Nat} {d : Char} (open_ : d ≠ ']')
    (rest : List Char) :
    scanRangeEnd lo length ('-' :: d :: rest) = match scanClassAtom (d :: rest) with
      | .error e => .error (e.shift (length + 1))
      | .ok (.set _, _) => .error ⟨0, .invalidRange⟩
      | .ok (.char hi, more) => .ok (.span lo hi, length + 1 + more) := by
  rw [scanRangeEnd, if_neg open_]

theorem le_of_scanRangeEnd {lo : Char} {length n : Nat} {cs : List Char} {item : ClassItem}
    (h : scanRangeEnd lo length cs = .ok (item, n)) : length ≤ n := by
  unfold scanRangeEnd at h
  split at h
  · split at h
    · cases h
      exact Nat.le_refl _
    · split at h <;> cases h
      omega
  · cases h
    exact Nat.le_refl _

theorem replaces_append_cons (a : List Char) (stop : Char) (after rest : List Char) :
    Replaces (a ++ stop :: after) (a ++ stop :: rest) := by
  cases a <;> exact .inl rfl

theorem scanClassAtom_inside {a rest after : List Char} {atom : ClassAtom} {n : Nat}
    (h : scanClassAtom (a ++ ']' :: rest) = .ok (atom, n)) (inside : n ≤ a.length) :
    scanClassAtom (a ++ ']' :: after) = .ok (atom, n) := by
  have length : (a.take n).length = n := List.length_take_of_le inside
  have split (x : List Char) : a ++ ']' :: x = a.take n ++ (a.drop n ++ ']' :: x) := by
    rw [← List.append_assoc, List.take_append_drop]
  rw [split] at h ⊢
  conv at h => rhs; rw [← length]
  rw [scanClassAtom_append h (replaces_append_cons _ _ _ _), length]

theorem scanRangeEnd_inside {lo : Char} {length n : Nat} {b rest after : List Char}
    {item : ClassItem} (h : scanRangeEnd lo length (b ++ ']' :: rest) = .ok (item, n))
    (inside : n ≤ length + b.length) :
    scanRangeEnd lo length (b ++ ']' :: after) = .ok (item, n) := by
  match b with
  | [] => exact h
  | [c] =>
      simp only [List.singleton_append] at h ⊢
      rw [scanRangeEnd_single (by simp)] at h ⊢
      exact h
  | c :: d :: b =>
      simp only [List.cons_append] at h ⊢
      by_cases range : c = '-' ∧ d ≠ ']'
      · obtain ⟨rfl, open_⟩ := range
        rw [scanRangeEnd_range open_] at h ⊢
        split at h
        · cases h
        · cases h
        · rename_i hi more atom
          cases h
          have fits : more ≤ (d :: b).length := by
            simp only [List.length_cons] at inside ⊢
            omega
          have follows : scanClassAtom (d :: (b ++ ']' :: after)) = .ok (.char hi, more) :=
            scanClassAtom_inside (a := d :: b) atom fits
          rw [follows]
      · rw [scanRangeEnd_single range] at h ⊢
        exact h

theorem scanClassItem_inside {a rest after : List Char} {item : ClassItem} {n : Nat}
    (h : scanClassItem (a ++ ']' :: rest) = .ok (item, n)) (inside : n ≤ a.length) :
    scanClassItem (a ++ ']' :: after) = .ok (item, n) := by
  have same := className?_append a rest after
  cases named : className? (a ++ ']' :: rest) with
  | some name =>
      rw [scanClassItem, named] at h
      rw [scanClassItem, same, named]
      exact h
  | none =>
      rw [named] at same
      cases atom : scanClassAtom (a ++ ']' :: rest) with
      | error e =>
          rw [scanClassItem, named, atom] at h
          cases h
      | ok scanned =>
          obtain ⟨atom', length⟩ := scanned
          cases atom' with
          | set members =>
              rw [scanClassItem, named, atom] at h
              cases h
              rw [scanClassItem, same, scanClassAtom_inside atom inside]
          | char lo =>
              rw [scanClassItem_of_char named atom] at h
              have fits : length ≤ a.length := Nat.le_trans (le_of_scanRangeEnd h) inside
              have follows : scanClassAtom (a ++ ']' :: after) = .ok (.char lo, length) :=
                scanClassAtom_inside atom fits
              rw [List.drop_append_of_le_length fits] at h
              rw [scanClassItem_of_char same follows, List.drop_append_of_le_length fits]
              apply scanRangeEnd_inside h
              rw [List.length_drop]
              omega

theorem scanClassBody_inside {position skip : Nat} {first : Bool} {a rest : List Char}
    (after : List Char) (h : (scanClassBody position first skip (a ++ ']' :: rest)).ending =
      .ok (position + a.length + 1)) :
    scanClassBody position first skip (a ++ ']' :: after) =
      scanClassBody position first skip (a ++ ']' :: rest) := by
  induction a generalizing position first skip with
  | nil =>
      -- an item here would read past the closing bracket
      have early {skip : Nat} {first : Bool} (ending :
          (scanClassBody (position + 1) first skip rest).ending = .ok (position + 1)) : False := by
        obtain ⟨inner, -, -, -, stop⟩ := scanClassBody_consumes ending
        omega
      cases skip with
      | succ skip => exact (early h).elim
      | zero =>
          simp only [List.nil_append, scanClassBody] at h ⊢
          split at h
          · rename_i closes
            rw [if_pos closes, if_pos closes]
          · split at h
            · cases h
            · exact (early h).elim
  | cons c a ih =>
      simp only [List.length_cons] at h
      have stop : position + (a.length + 1) + 1 = position + 1 + a.length + 1 := by omega
      rw [stop] at h
      cases skip with
      | succ skip => exact ih h
      | zero =>
          simp only [List.cons_append, scanClassBody] at h ⊢
          split at h
          · have := Except.ok.inj h
            omega
          · rename_i more
            rw [if_neg more, if_neg more]
            split at h
            · cases h
            · rename_i item n scanned
              obtain ⟨inner, tail, body, skipped, ends⟩ := scanClassBody_consumes h
              have inside : n ≤ (c :: a).length := by
                rw [List.length_cons]
                omega
              have follows : scanClassItem (c :: (a ++ ']' :: after)) = .ok (item, n) :=
                scanClassItem_inside (a := c :: a) scanned inside
              rw [follows]
              simp only [ih h]

theorem scanClass_append {w rest after : List Char} {members : CharClass}
    (h : scanClass (w ++ rest) = .ok (members, w.length)) :
    scanClass (w ++ after) = .ok (members, w.length) := by
  simp only [scanClass, bind_eq_ok] at h
  obtain ⟨inserted, insertion, stop, ending, result⟩ := h
  obtain ⟨rfl, rfl⟩ : inserted = members ∧ stop = w.length := by
    cases result
    exact ⟨rfl, rfl⟩
  obtain ⟨inner, tail, body, -, stops⟩ := scanClassBody_consumes ending
  have second (x : List Char) : (w ++ x)[1]? = w[1]? := by
    apply List.getElem?_append_left
    split at stops <;> omega
  rw [second] at insertion ending body stops
  simp only [scanClass, second]
  generalize start_eq : (if w[1]? == some '^' then 2 else 1) = start at *
  have inside : start ≤ w.length := by omega
  simp only [List.drop_append_of_le_length inside] at insertion ending body ⊢
  have length : (w.drop start).length = w.length - start := List.length_drop
  obtain ⟨more, own, -⟩ := exists_of_append_eq body.symm (by omega)
  obtain rfl : more = [] := by
    rw [own, List.length_append, List.length_cons] at length
    exact List.eq_nil_of_length_eq_zero (by omega)
  rw [own, List.append_assoc, List.singleton_append] at insertion ending ⊢
  rw [stops] at ending
  rw [scanClassBody_inside after ending, insertion, ending, stops]
  rfl

end PatternSampler
