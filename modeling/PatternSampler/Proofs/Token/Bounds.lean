import PatternSampler.Generation.Basic
import PatternSampler.Proofs.Token.WellFormed

/-!
# What a scanner consumes

Every scanner that succeeds has read a stretch at the start of its text: a name and its
terminator, a bracket up to the one that closes it, a brace up to the one that matches.  So
no token reaches past the end of the text.
-/

namespace PatternSampler

theorem mem_takeWhile {p : Char → Bool} {c : Char} {cs : List Char} (h : c ∈ cs.takeWhile p) :
    p c = true :=
  (List.all_eq_true.1 List.all_takeWhile) c h

theorem groupName?_eq_some {cs name : List Char} :
    groupName? cs = some name ↔
      name ≠ [] ∧ (∀ c ∈ name, isNameChar c = true) ∧ ∃ rest, cs = name ++ '>' :: rest := by
  constructor
  · intro h
    unfold groupName? at h
    split at h
    · rename_i c tail rest taken dropped
      cases h
      refine ⟨List.cons_ne_nil _ _, ?_, rest, ?_⟩
      · rw [← taken]
        exact fun d => mem_takeWhile
      · rw [← taken, ← dropped, List.takeWhile_append_dropWhile]
    · cases h
  · rintro ⟨some, all, rest, rfl⟩
    have stops : isNameChar '>' = false := by decide
    rw [groupName?, List.takeWhile_append_of_pos all, List.dropWhile_append_of_pos all]
    cases name with
    | nil => exact absurd rfl some
    | cons c name => simp [stops]

theorem className?_eq_some {cs name : List Char} :
    className? cs = some name ↔
      name ≠ [] ∧ (∀ c ∈ name, c.isAlpha = true) ∧
        ∃ rest, cs = '[' :: ':' :: name ++ ':' :: ']' :: rest := by
  constructor
  · intro h
    unfold className? at h
    split at h
    · rename_i inner
      dsimp only at h
      split at h
      · rename_i c tail rest taken dropped
        cases h
        refine ⟨taken ▸ List.cons_ne_nil _ _, fun d hd => mem_takeWhile hd, rest, ?_⟩
        rw [List.cons_append, List.cons_append, ← dropped, List.takeWhile_append_dropWhile]
      · cases h
    · cases h
  · rintro ⟨some, all, rest, rfl⟩
    simp only [List.cons_append, className?]
    have stops : Char.isAlpha ':' = false := by decide
    rw [List.takeWhile_append_of_pos all, List.dropWhile_append_of_pos all]
    cases name with
    | nil => exact absurd rfl some
    | cons c name => simp [stops]

theorem scanBraces_consumes {cs : List Char} {q : Quantifier} {n : Nat}
    (h : scanBraces cs = .ok (q, n)) : ∃ inner rest, cs = inner ++ '\x7d' :: rest ∧
      n = inner.length + 1 := by
  simp only [scanBraces] at h
  generalize (if cs[1]? == some '=' then 2 else 1) = start at h
  obtain ⟨min, -, h⟩ := bind_eq_ok.1 h
  split at h
  · obtain ⟨_, hthrow, _⟩ := bind_eq_ok.1 h
    cases hthrow
  generalize start + ((cs.drop start).takeWhile Char.isDigit).length = comma at h
  have whole {c : Char} {rest : List Char} (left : cs.drop comma = c :: rest) :
      cs = cs.take comma ++ c :: rest ∧ (cs.take comma).length = comma := by
    have fits := congrArg List.length left
    simp only [List.length_drop, List.length_cons] at fits
    exact ⟨by rw [← left, List.take_append_drop], List.length_take_of_le (by omega)⟩
  split at h
  · rename_i rest left
    obtain ⟨cs_eq, length⟩ := whole left
    have digits := List.takeWhile_append_dropWhile (p := Char.isDigit) (l := rest)
    obtain ⟨max, -, h⟩ := bind_eq_ok.1 h
    split at h
    · rename_i tail taken dropped
      cases h
      rw [taken, dropped] at digits
      refine ⟨cs.take comma ++ [','], tail, ?_, by simp [length]⟩
      rw [cs_eq, ← digits]
      simp [length]
    · rename_i tail dropped _
      split at h
      · obtain ⟨_, hthrow, _⟩ := bind_eq_ok.1 h
        cases hthrow
      · cases h
        rw [dropped] at digits
        refine ⟨cs.take comma ++ ',' :: rest.takeWhile Char.isDigit, tail, ?_, ?_⟩
        · conv => lhs; rw [cs_eq, ← digits]
          simp
        · simp only [List.length_append, List.length_cons, length]
          omega
    · cases h
  · rename_i rest left
    obtain ⟨cs_eq, length⟩ := whole left
    cases h
    exact ⟨cs.take comma, rest, cs_eq, by rw [length]⟩
  · cases h

theorem length_of_mapM {α β : Type} {f : α → Option β} {xs : List α} {ys : List β}
    (h : xs.mapM f = some ys) : ys.length = xs.length := by
  induction xs generalizing ys with
  | nil =>
      cases h
      rfl
  | cons x xs ih =>
      simp only [List.mapM_cons, Option.bind_eq_bind, Option.bind_eq_some_iff] at h
      obtain ⟨y, -, rest, hrest, hys⟩ := h
      cases hys
      simp [ih hrest]

theorem le_of_codePointEscape {base count : Nat} {cs : List Char} {c : Char}
    (h : codePointEscape base count cs = .ok c) : count ≤ cs.length := by
  unfold codePointEscape at h
  split at h
  · cases h
  · rename_i digits read
    have length := length_of_mapM read
    rw [List.length_take] at length
    split at h
    · cases h
    · omega

/-- The ways to spell a character behind a backslash, by the first character of the spelling. -/
inductive EscapeKind : Char → Prop
  | hex : EscapeKind 'x'
  | unicode : EscapeKind 'u'
  | octal : EscapeKind '0'
  | decimal {d : Char} (digit : d.isDigit = true) (nonzero : d ≠ '0') : EscapeKind d
  /-- The character is an escape by itself, or none whatever follows. -/
  | alone {d : Char} (result : Except Flaw (Option Char))
      (same : ∀ rest, escapedChar (d :: rest) = result.map (·.map (·, 1))) : EscapeKind d

theorem escapeKind (d : Char) : EscapeKind d := by
  cases control : controlEscape? d with
  | some c =>
      refine .alone (.ok (some c)) fun rest => ?_
      simp only [escapedChar, control]
      rfl
  | none =>
      by_cases hex : d = 'x'
      · exact hex ▸ .hex
      by_cases unicode : d = 'u'
      · exact unicode ▸ .unicode
      by_cases zero : d = '0'
      · exact zero ▸ .octal
      by_cases digit : d.isDigit = true
      · exact .decimal digit zero
      refine .alone (if isReservedEscape d then .ok none
        else if d.isAlphanum then .error (.unknownEscape d) else .ok (some d)) fun rest => ?_
      simp only [escapedChar, control, if_neg hex, if_neg unicode, if_neg zero, if_neg digit]
      split
      · rfl
      · split <;> rfl

theorem escapedChar_hex (rest : List Char) : escapedChar ('x' :: rest) =
    (codePointEscape 16 2 rest).map fun c => some (c, 3) := rfl

theorem escapedChar_unicode (rest : List Char) : escapedChar ('u' :: rest) =
    (codePointEscape 16 4 rest).map fun c => some (c, 5) := rfl

theorem escapedChar_octal (rest : List Char) : escapedChar ('0' :: rest) =
    let digits := (rest.take 3).takeWhile fun d => (digitOf? 8 d).isSome
    (codePointEscape 8 digits.length rest).map fun c => some (c, digits.length + 1) := rfl

theorem escapedChar_decimal {d : Char} (digit : d.isDigit = true) (nonzero : d ≠ '0')
    (rest : List Char) : escapedChar (d :: rest) =
      if ((d :: rest).takeWhile Char.isDigit).length < 2 then .ok none
      else (codePointEscape 10 ((d :: rest).takeWhile Char.isDigit).length (d :: rest)).map
        fun c => some (c, ((d :: rest).takeWhile Char.isDigit).length) := by
  have control : controlEscape? d = none := by
    unfold controlEscape?
    split <;> first | rfl | cases digit
  have hex : d ≠ 'x' := by
    rintro rfl
    cases digit
  have unicode : d ≠ 'u' := by
    rintro rfl
    cases digit
  simp only [escapedChar, control, if_neg hex, if_neg unicode, if_neg nonzero, digit, if_true]

theorem spelled_eq_ok {base count length n : Nat} {cs : List Char} {c : Char}
    (h : (codePointEscape base count cs).map (fun c => some (c, length)) = .ok (some (c, n))) :
    count ≤ cs.length ∧ length = n := by
  cases code : codePointEscape base count cs with
  | error e =>
      rw [code] at h
      cases h
  | ok c' =>
      rw [code] at h
      cases h
      exact ⟨le_of_codePointEscape code, rfl⟩

theorem spelled_ne_none {base count length : Nat} {cs : List Char} :
    (codePointEscape base count cs).map (fun c => some (c, length)) ≠ .ok none := by
  intro h
  cases code : codePointEscape base count cs <;> rw [code] at h <;> cases h

theorem bounds_of_escapedChar {cs : List Char} {c : Char} {n : Nat}
    (h : escapedChar cs = .ok (some (c, n))) : 1 ≤ n ∧ n ≤ cs.length := by
  cases cs with
  | nil => cases h
  | cons d rest =>
      rw [List.length_cons]
      cases escapeKind d with
      | hex | unicode | octal =>
          have := spelled_eq_ok h
          omega
      | decimal digit nonzero =>
          rw [escapedChar_decimal digit nonzero] at h
          split at h
          · cases h
          · have := spelled_eq_ok h
            rw [List.length_cons] at this
            omega
      | alone result same =>
          rw [same] at h
          match result, h with
          | .ok (some _), h =>
              cases h
              omega

theorem bounds_of_scanClassAtom {cs : List Char} {atom : ClassAtom} {n : Nat}
    (h : scanClassAtom cs = .ok (atom, n)) : 1 ≤ n ∧ n ≤ cs.length := by
  unfold scanClassAtom at h
  split at h
  · cases h
  · rename_i rest
    rw [List.length_cons]
    split at h
    · rename_i members shorthand
      cases h
      cases rest with
      | nil => cases shorthand
      | cons c rest => simp
    · split at h
      · cases h
      · rename_i c length escaped
        cases h
        have := bounds_of_escapedChar escaped
        omega
      · cases h
  · cases h
    simp

theorem scanClassBody_consumes {position skip : Nat} {first : Bool} {cs : List Char} {stop : Nat}
    (h : (scanClassBody position first skip cs).ending = .ok stop) :
    ∃ inner rest, cs = inner ++ ']' :: rest ∧ skip ≤ inner.length ∧
      stop = position + inner.length + 1 := by
  induction cs generalizing position first skip with
  | nil => cases h
  | cons c rest ih =>
      cases skip with
      | succ skip =>
          obtain ⟨inner, after, rfl, skipped, stops⟩ := ih h
          refine ⟨c :: inner, after, rfl, Nat.succ_le_succ skipped, ?_⟩
          rw [List.length_cons]
          omega
      | zero =>
          unfold scanClassBody at h
          split at h
          · rename_i closes
            cases h
            exact ⟨[], rest, by rw [closes.1]; rfl, Nat.le_refl 0, rfl⟩
          · split at h
            · cases h
            · obtain ⟨inner, after, rfl, -, stops⟩ := ih h
              refine ⟨c :: inner, after, rfl, Nat.zero_le _, ?_⟩
              rw [List.length_cons]
              omega

theorem scanClass_consumes {cs : List Char} {members : CharClass} {n : Nat}
    (h : scanClass cs = .ok (members, n)) :
    ∃ inner rest, cs = inner ++ ']' :: rest ∧ n = inner.length + 1 := by
  simp only [scanClass, bind_eq_ok] at h
  generalize (if cs[1]? == some '^' then 2 else 1) = start at h
  obtain ⟨inserted, -, stop, ending, hpure⟩ := h
  cases hpure
  obtain ⟨inner, rest, body, -, rfl⟩ := scanClassBody_consumes ending
  have fits := congrArg List.length body
  simp only [List.length_drop, List.length_append, List.length_cons] at fits
  refine ⟨cs.take start ++ inner, rest, ?_, ?_⟩
  · rw [List.append_assoc, ← body, List.take_append_drop]
  · rw [List.length_append, List.length_take_of_le (by omega)]

theorem bounds_of_withLazy {cs : List Char} (q : Quantifier) {n : Nat} (some : 1 ≤ n)
    (fits : n ≤ cs.length) : 1 ≤ (withLazy cs q n).2 ∧ (withLazy cs q n).2 ≤ cs.length := by
  unfold withLazy
  dsimp only
  split
  · rename_i question
    have : n < cs.length := (List.getElem?_eq_some_iff.1 (by simpa using question)).1
    omega
  · omega

theorem bounds_of_scanOpening {cs : List Char} (some : cs ≠ []) :
    1 ≤ (scanOpening cs).2 ∧ (scanOpening cs).2 ≤ cs.length := by
  have one : 1 ≤ cs.length := List.length_pos_iff.2 some
  unfold scanOpening
  split
  · simp
  · split
    · rename_i rest name found
      obtain ⟨-, -, tail, rfl⟩ := groupName?_eq_some.1 found
      simp only [List.length_cons, List.length_append]
      omega
    · exact ⟨Nat.le_refl 1, one⟩
  · exact ⟨Nat.le_refl 1, one⟩
  · exact ⟨Nat.le_refl 1, one⟩

theorem bounds_of_scanBracket {cs : List Char} (some : cs ≠ []) :
    1 ≤ (scanBracket cs).2 ∧ (scanBracket cs).2 ≤ cs.length := by
  have one : 1 ≤ cs.length := List.length_pos_iff.2 some
  unfold scanBracket
  split
  · rename_i name found
    obtain ⟨-, -, rest, rfl⟩ := className?_eq_some.1 found
    have named : name.length + 4 ≤ ('[' :: ':' :: name ++ ':' :: ']' :: rest).length := by
      simp only [List.length_cons, List.length_append]
      omega
    split
    · exact ⟨Nat.le_add_left 1 _, named⟩
    · split
      · exact ⟨Nat.le_add_left 1 _, named⟩
      · exact ⟨Nat.le_refl 1, one⟩
  · split
    · rename_i members n scanned
      obtain ⟨inner, rest, rfl, rfl⟩ := scanClass_consumes scanned
      simp
    · exact ⟨Nat.le_refl 1, one⟩

theorem bounds_of_scanEscape (rest : List Char) :
    1 ≤ (scanEscape rest).2 ∧ (scanEscape rest).2 ≤ rest.length + 1 := by
  unfold scanEscape
  split
  · simp
  · split
    · rename_i rest name found
      obtain ⟨-, -, tail, rfl⟩ := groupName?_eq_some.1 found
      simp only [List.length_cons, List.length_append]
      omega
    · simp
  · simp
  · split
    · rename_i members shorthand
      cases rest with
      | nil => cases shorthand
      | cons c rest => simp
    · split
      · simp
      · rename_i c n escaped
        have := bounds_of_escapedChar escaped
        omega
      · rename_i reserved
        cases rest with
        | nil => cases reserved
        | cons c rest => simp

theorem bounds_of_scanToken (c : Char) (rest : List Char) :
    1 ≤ (scanToken c rest).2 ∧ (scanToken c rest).2 ≤ rest.length + 1 := by
  have one : 1 ≤ (c :: rest).length := Nat.le_add_left 1 _
  have single : 1 ≤ 1 ∧ 1 ≤ (c :: rest).length := ⟨Nat.le_refl 1, one⟩
  unfold scanToken
  split
  · exact single
  · exact single
  · exact single
  · exact single
  · exact bounds_of_scanOpening (List.cons_ne_nil _ _)
  · exact single
  · exact bounds_of_scanBracket (List.cons_ne_nil _ _)
  · exact single
  · exact bounds_of_withLazy _ (Nat.le_refl 1) one
  · exact bounds_of_withLazy _ (Nat.le_refl 1) one
  · exact bounds_of_withLazy _ (Nat.le_refl 1) one
  · split
    · rename_i bounds n scanned
      obtain ⟨inner, after, text, rfl⟩ := scanBraces_consumes scanned
      refine bounds_of_withLazy bounds (Nat.le_add_left 1 _) ?_
      rw [text, List.length_append, List.length_cons]
      omega
    · exact single
  · exact bounds_of_scanEscape rest
  · exact single

theorem numberOf_concat_le {digits : List Nat} {d : Nat} (small : numberOf 10 digits ≤ maxRepeat)
    (digit : d < 10) : numberOf 10 (digits ++ [d]) ≤ largestCount := by
  have next : numberOf 10 (digits ++ [d]) = numberOf 10 digits * 10 + d := by
    simp [numberOf]
  have room : maxRepeat * 10 + 10 ≤ largestCount := by decide
  rw [next]
  omega

end PatternSampler
