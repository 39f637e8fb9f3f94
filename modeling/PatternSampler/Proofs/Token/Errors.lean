import PatternSampler.Proofs.Token.Locality

/-!
# Where errors point

An error is blamed on a character of the text.  Inside a token it is the first one, the start of
a number or an item of a class, and each of those is there.  Tokens follow each other without
gaps, so a reading that goes from one to the next always gets on and never leaves the text.
-/

namespace PatternSampler

theorem bind_eq_error {ε α β : Type} {x : Except ε α} {f : α → Except ε β} {e : ε} :
    x >>= f = .error e ↔ x = .error e ∨ ∃ a, x = .ok a ∧ f a = .error e := by
  cases x <;> simp [bind, Except.bind]

theorem of_repeatCount_eq_error {position : Nat} {digits : List Char} {e : PatternError}
    (h : repeatCount position digits = .error e) : e.index = position ∧ digits ≠ [] := by
  unfold repeatCount at h
  dsimp only at h
  split at h
  · rename_i large
    cases h
    refine ⟨rfl, ?_⟩
    rintro rfl
    cases large
  · cases h

theorem index_lt_of_scanBraces {cs : List Char} {e : PatternError} (some : cs ≠ [])
    (h : scanBraces cs = .error e) : e.index < cs.length := by
  have first : 0 < cs.length := List.length_pos_iff.2 some
  have number {start : Nat} {digits : List Char} (taken : digits <+: cs.drop start)
      (large : repeatCount start digits = .error e) : e.index < cs.length := by
    obtain ⟨rfl, digit⟩ := of_repeatCount_eq_error large
    have length := taken.length_le
    have := List.length_pos_iff.2 digit
    simp only [List.length_drop] at length
    omega
  simp only [scanBraces] at h
  generalize (if cs[1]? == .some '=' then 2 else 1) = start at h
  rcases bind_eq_error.1 h with low | ⟨min, -, h⟩
  · exact number (List.takeWhile_prefix _) low
  split at h
  · cases h
    exact first
  generalize start + ((cs.drop start).takeWhile Char.isDigit).length = comma at h
  split at h
  · rename_i rest left
    have behind : cs.drop (comma + 1) = rest := by
      rw [← List.drop_drop, left, List.drop_one, List.tail_cons]
    rcases bind_eq_error.1 h with high | ⟨max, -, h⟩
    · exact number (behind ▸ List.takeWhile_prefix _) high
    split at h
    · cases h
    · split at h
      · cases h
        exact first
      · cases h
    · cases h
      exact first
  · cases h
  · cases h
    exact first

theorem bounds_of_scanRangeEnd {lo : Char} {length n : Nat} {cs : List Char} {item : ClassItem}
    (h : scanRangeEnd lo length cs = .ok (item, n)) : length ≤ n ∧ n ≤ length + cs.length := by
  unfold scanRangeEnd at h
  split at h
  · split at h
    · cases h
      omega
    · split at h
      · cases h
      · cases h
      · rename_i hi more scanned
        cases h
        have := bounds_of_scanClassAtom scanned
        simp only [List.length_cons] at *
        omega
  · cases h
    omega

theorem bounds_of_scanClassItem {cs : List Char} {item : ClassItem} {n : Nat}
    (h : scanClassItem cs = .ok (item, n)) : 1 ≤ n ∧ n ≤ cs.length := by
  cases named : className? cs with
  | some name =>
      obtain ⟨-, -, rest, rfl⟩ := className?_eq_some.1 named
      rw [scanClassItem, named] at h
      dsimp only at h
      split at h
      · cases h
        simp only [List.length_cons, List.length_append]
        omega
      · cases h
  | none =>
      cases scanned : scanClassAtom cs with
      | error e => simp [scanClassItem, named, scanned] at h
      | ok result =>
          obtain ⟨atom, length⟩ := result
          have bounds := bounds_of_scanClassAtom scanned
          cases atom with
          | set members =>
              simp only [scanClassItem, named, scanned, Except.ok.injEq, Prod.mk.injEq] at h
              exact h.2 ▸ bounds
          | char lo =>
              rw [scanClassItem_of_char named scanned] at h
              have range := bounds_of_scanRangeEnd h
              simp only [List.length_drop] at range
              omega

theorem index_of_scanClassAtom {cs : List Char} {e : PatternError}
    (h : scanClassAtom cs = .error e) : e.index = 0 := by
  unfold scanClassAtom at h
  split at h
  · cases h
    rfl
  · split at h
    · cases h
    · split at h <;> cases h <;> rfl
  · cases h

theorem index_lt_of_scanClassItem {cs : List Char} {e : PatternError} (some : cs ≠ [])
    (h : scanClassItem cs = .error e) : e.index < cs.length := by
  have first : 0 < cs.length := List.length_pos_iff.2 some
  unfold scanClassItem at h
  split at h
  · split at h
    · cases h
    · cases h
      exact first
  · split at h
    · rename_i scanned
      cases h
      exact (index_of_scanClassAtom scanned).symm ▸ first
    · cases h
    · split at h
      · rename_i length _ c rest left
        split at h
        · cases h
        · split at h
          · -- The other end of the range stands behind the hyphen.
            rename_i scanned
            cases h
            have behind := congrArg List.length left
            simp only [List.length_drop, List.length_cons] at behind
            simp only [PatternError.shift, index_of_scanClassAtom scanned]
            omega
          · cases h
            exact first
          · cases h
      · cases h

theorem index_lt_of_scanClassBody (position skip : Nat) (first : Bool) (cs : List Char) :
    (∀ entry ∈ (scanClassBody position first skip cs).items, entry.1 < position + cs.length) ∧
      ∀ e, (scanClassBody position first skip cs).ending = .error e →
        e.index < position + cs.length ∨ e.index = 0 := by
  induction cs generalizing position first skip with
  | nil =>
      refine ⟨by simp [scanClassBody], fun e h => ?_⟩
      cases h
      exact .inr rfl
  | cons c rest ih =>
      have shift : position + 1 + rest.length = position + (c :: rest).length := by
        rw [List.length_cons]
        omega
      cases skip with
      | succ skip => exact shift ▸ ih (position + 1) skip first
      | zero =>
          unfold scanClassBody
          split
          · refine ⟨by simp, fun e h => by cases h⟩
          · split
            · rename_i e scanned
              refine ⟨by simp, fun e h => ?_⟩
              cases h
              have := index_lt_of_scanClassItem (List.cons_ne_nil _ _) scanned
              exact .inl (Nat.add_lt_add_left this position)
            · rename_i length _
              obtain ⟨items, ending⟩ := shift ▸ ih (position + 1) (length - 1) false
              refine ⟨List.forall_mem_cons.2 ⟨?_, items⟩, ending⟩
              rw [List.length_cons]
              omega

theorem of_insertItems_eq_error {c : CharClass} {items : List (Nat × ClassItem)} {e : PatternError}
    (h : c.insertItems items = .error e) : ∃ entry ∈ items, e.index = entry.1 := by
  induction items generalizing c with
  | nil => cases h
  | cons entry rest ih =>
      obtain ⟨position, item⟩ := entry
      unfold CharClass.insertItems at h
      split at h
      · obtain ⟨entry, listed, same⟩ := ih h
        exact ⟨entry, List.mem_cons_of_mem _ listed, same⟩
      · cases h
        exact ⟨_, List.mem_cons_self, rfl⟩

theorem index_lt_of_scanClass {cs : List Char} {e : PatternError} (some : cs ≠ [])
    (h : scanClass cs = .error e) : e.index < cs.length := by
  have first : 0 < cs.length := List.length_pos_iff.2 some
  have inside : (if cs[1]? == .some '^' then 2 else 1) ≤ cs.length := by
    split
    · rename_i second
      exact (List.getElem?_eq_some_iff.1 (by simpa using second)).1
    · exact first
  simp only [scanClass] at h
  generalize (if cs[1]? == .some '^' then 2 else 1) = start at h inside
  have bounds := index_lt_of_scanClassBody start 0 true (cs.drop start)
  rw [List.length_drop] at bounds
  obtain ⟨items, ending⟩ := bounds
  rcases bind_eq_error.1 h with refused | ⟨members, -, h⟩
  · obtain ⟨entry, listed, same⟩ := of_insertItems_eq_error refused
    have := items entry listed
    omega
  · rcases bind_eq_error.1 h with stopped | ⟨length, -, h⟩
    · have := ending e stopped
      omega
    · cases h

def Token.error? : Token → Option PatternError
  | invalid e => some e
  | quantifier (.error e) => some e
  | _ => none

theorem index_of_scanOpening {cs : List Char} {e : PatternError}
    (h : (scanOpening cs).1.error? = some e) : e.index = 0 := by
  unfold scanOpening at h
  split at h
  · cases h
  · split at h <;> cases h
    rfl
  · cases h
    rfl
  · cases h

theorem index_lt_of_scanBracket {cs : List Char} {e : PatternError} (some : cs ≠ [])
    (h : (scanBracket cs).1.error? = .some e) : e.index < cs.length := by
  unfold scanBracket at h
  split at h
  · split at h
    · cases h
    · split at h <;> cases h
      exact List.length_pos_iff.2 some
  · split at h
    · cases h
    · rename_i scanned
      cases h
      exact index_lt_of_scanClass some scanned

theorem index_of_scanEscape {rest : List Char} {e : PatternError}
    (h : (scanEscape rest).1.error? = some e) : e.index = 0 := by
  unfold scanEscape at h
  split at h
  · cases h
  · split at h <;> cases h
    rfl
  · cases h
    rfl
  · split at h
    · cases h
    · split at h <;> cases h
      rfl

theorem index_lt_of_scanToken {c : Char} {rest : List Char} {e : PatternError}
    (h : (scanToken c rest).1.error? = some e) : e.index < (c :: rest).length := by
  have first : 0 < (c :: rest).length := Nat.succ_pos _
  unfold scanToken at h
  split at h
  · cases h
  · cases h
  · cases h
  · cases h
  · exact (index_of_scanOpening h).symm ▸ first
  · cases h
  · exact index_lt_of_scanBracket (List.cons_ne_nil _ _) h
  · cases h
    exact first
  · cases h
  · cases h
  · cases h
  · split at h
    · cases h
    · rename_i scanned
      cases h
      exact index_lt_of_scanBraces (List.cons_ne_nil _ _) scanned
  · exact (index_of_scanEscape h).symm ▸ first
  · cases h

def cursor (length : Nat) : List (Nat × Token) → Nat
  | [] => length
  | (i, _) :: _ => i

theorem tokensFrom_eq_drop (position : Nat) {skip : Nat} {cs : List Char}
    (inside : skip ≤ cs.length) :
    tokensFrom position skip cs = tokensFrom (position + skip) 0 (cs.drop skip) := by
  induction cs generalizing position skip with
  | nil =>
      obtain rfl := Nat.le_zero.1 inside
      rfl
  | cons c rest ih =>
      cases skip with
      | zero => rfl
      | succ skip =>
          have next : position + (skip + 1) = position + 1 + skip := by omega
          rw [next, List.drop_succ_cons, ← ih (position + 1) (Nat.le_of_succ_le_succ inside)]
          rfl

theorem cursor_tokensFrom (position : Nat) (cs : List Char) :
    cursor (position + cs.length) (tokensFrom position 0 cs) = position := by
  cases cs with
  | nil => rfl
  | cons c rest =>
      obtain ⟨others, eq⟩ := exists_tokensFrom position c rest
      rw [eq]
      rfl

theorem cursor_behind (position : Nat) (c : Char) {n : Nat} {rest : List Char}
    (bounds : 1 ≤ n ∧ n ≤ rest.length + 1) :
    cursor (position + (c :: rest).length) (tokensFrom (position + 1) (n - 1) rest) =
      position + n := by
  have inside : n - 1 ≤ rest.length := by omega
  have length : position + (c :: rest).length =
      position + 1 + (n - 1) + (rest.drop (n - 1)).length := by
    simp only [List.length_cons, List.length_drop]
    omega
  rw [tokensFrom_eq_drop _ inside, length, cursor_tokensFrom]
  omega

/-- The token `t` is scanned at the position `i`, where `c` and `v` are left of the text, and
takes the cursor to `after`.  Nothing is read behind an invalid token. -/
structure Scanned (length i : Nat) (t : Token) (c : Char) (v : List Char) (after : Nat) : Prop where
  token : (scanToken c v).1 = t
  advances : i < after
  inside : after ≤ length
  whole : (∀ e, t ≠ .invalid e) → after = i + (scanToken c v).2

theorem exists_scanned {position skip i : Nat} {cs : List Char} {t : Token}
    {before rest : List (Nat × Token)}
    (h : tokensFrom position skip cs = before ++ (i, t) :: rest) :
    ∃ u c v, cs = u ++ c :: v ∧ i = position + u.length ∧
      Scanned (position + cs.length) i t c v (cursor (position + cs.length) rest) := by
  induction cs generalizing position skip before with
  | nil =>
      cases skip <;> simp [tokensFrom] at h
  | cons c cs ih =>
      have shift : position + 1 + cs.length = position + (c :: cs).length := by
        rw [List.length_cons]
        omega
      have later {skip : Nat} {before : List (Nat × Token)}
          (h : tokensFrom (position + 1) skip cs = before ++ (i, t) :: rest) :
          ∃ u d v, c :: cs = u ++ d :: v ∧ i = position + u.length ∧
            Scanned (position + (c :: cs).length) i t d v
              (cursor (position + (c :: cs).length) rest) := by
        obtain ⟨u, d, v, rfl, rfl, scanned⟩ := ih h
        rw [shift] at scanned
        exact ⟨c :: u, d, v, rfl, by rw [List.length_cons]; omega, scanned⟩
      cases skip with
      | succ skip => exact later h
      | zero =>
          unfold tokensFrom at h
          split at h
          · rename_i e n scan
            obtain ⟨rfl, entry⟩ : before = [] ∧ [(position, .invalid e)] = (i, t) :: rest := by
              cases before with
              | nil => exact ⟨rfl, h⟩
              | cons => simp at h
            cases entry
            refine ⟨[], c, cs, rfl, rfl, by rw [scan], ?_, Nat.le_refl _, fun h => ?_⟩
            · rw [cursor, List.length_cons]
              omega
            · exact absurd rfl (h e)
          · rename_i token n _ scan
            cases before with
            | cons entry before =>
                rw [List.cons_append, List.cons.injEq] at h
                exact later h.2
            | nil =>
                cases h
                have bounds := bounds_of_scanToken c cs
                rw [scan] at bounds
                have behind := cursor_behind i c bounds
                refine ⟨[], c, cs, rfl, rfl, by rw [scan], ?_, ?_, fun _ => by rw [behind, scan]⟩
                · rw [behind]
                  exact Nat.lt_add_of_pos_right bounds.1
                · rw [behind, List.length_cons]
                  exact Nat.add_le_add_left bounds.2 i

theorem cursor_lt_of_append {text : List Char} {before piece after : List (Nat × Token)}
    (h : tokens text = before ++ (piece ++ after)) (some : piece ≠ []) :
    cursor text.length (piece ++ after) < cursor text.length after ∧
      cursor text.length after ≤ text.length := by
  induction piece generalizing before with
  | nil => exact absurd rfl some
  | cons entry piece ih =>
      obtain ⟨i, t⟩ := entry
      obtain ⟨u, c, v, -, -, scanned⟩ := exists_scanned h
      rw [Nat.zero_add] at scanned
      cases piece with
      | nil => exact ⟨scanned.advances, scanned.inside⟩
      | cons next piece =>
          have rest : tokens text = before ++ [(i, t)] ++ (next :: piece ++ after) := by
            simpa using h
          obtain ⟨advances, inside⟩ := ih rest (List.cons_ne_nil _ _)
          exact ⟨Nat.lt_trans scanned.advances advances, inside⟩

theorem fits_of_mem_tokens {text : List Char} {i : Nat} {t : Token} (h : (i, t) ∈ tokens text) :
    i < text.length ∧ ∀ e ∈ t.error?, i + e.index < text.length := by
  obtain ⟨before, rest, cut⟩ := List.append_of_mem h
  obtain ⟨u, c, v, rfl, rfl, scanned⟩ := exists_scanned cut
  have length : (u ++ c :: v).length = u.length + (c :: v).length := List.length_append
  refine ⟨?_, fun e he => ?_⟩
  · have := scanned.advances
    have := scanned.inside
    omega
  · have := index_lt_of_scanToken (scanned.token.symm ▸ he)
    omega

end PatternSampler
