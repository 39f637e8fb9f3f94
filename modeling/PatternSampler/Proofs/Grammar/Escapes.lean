import PatternSampler.Proofs.Grammar.Tokens

/-!
# Where an escape ends

An octal or a decimal escape goes on for as long as digits follow, the octal one up to three.
With this rule a text begins with at most one escape, and the scanner finds exactly that one.
-/

namespace PatternSampler.Grammar

/-- No digit follows that the escape `w` would take as well. -/
structure Stops (w rest : List Char) : Prop where
  octal : ∀ ds, w = '0' :: ds →
    ds.length = 3 ∨ ∀ c ∈ rest.head?, (digitOf? 8 c).isSome = false
  decimal : ∀ d ds, w = d :: ds → d ≠ '0' → d.isDigit = true → ∀ c ∈ rest.head?, c.isDigit = false

variable {base n : Nat} {w ds rest : List Char} {c : Char}

theorem Numeral.exists_values (h : Numeral base w n) :
    ∃ values, w.mapM (digitOf? base) = some values ∧ numberOf base values = n := by
  induction h with
  | nil => exact ⟨[], rfl, rfl⟩
  | @snoc w n d c before digit ih =>
      obtain ⟨values, read, rfl⟩ := ih
      exact ⟨values ++ [d], by simp [List.mapM_append, read, digit], by simp [numberOf]⟩

theorem Numeral.isSome_of_mem (h : Numeral base w n) (hc : c ∈ w) :
    (digitOf? base c).isSome = true := by
  induction h with
  | nil => simp at hc
  | snoc before digit ih =>
      rcases List.mem_append.1 hc with early | last
      · exact ih early
      · simp only [List.mem_singleton] at last
        simp [last, digit]

theorem Numeral.codePointEscape_append (code : Numeral base ds c.toNat) (rest : List Char) :
    codePointEscape base ds.length (ds ++ rest) = .ok c := by
  obtain ⟨values, read, value⟩ := code.exists_values
  simp [codePointEscape, read, length_of_mapM read, value, charOf?_toNat]

theorem isAlphanum_of_controlEscape? {d : Char} (h : controlEscape? d = some c) :
    d.isAlphanum = true := by
  unfold controlEscape? at h
  split at h <;> first | rfl | cases h

theorem isAlphanum_of_isReservedEscape {d : Char} (h : isReservedEscape d = true) :
    d.isAlphanum = true := by
  unfold isReservedEscape CharClass.shorthand? at h
  split at h <;> try rfl
  simp only [Option.isSome_none, Bool.or_false, Bool.or_eq_true, beq_iff_eq] at h
  cases h with
  | inl i => exact i ▸ rfl
  | inr k => exact k ▸ rfl

theorem escapedChar_of_escape (escape : Escape w c) (stops : Stops w rest) :
    escapedChar (w ++ rest) = .ok (some (c, w.length)) := by
  cases escape with
  | control known => simp [escapedChar, known]
  | @hex ds c two code =>
      have read := code.codePointEscape_append rest
      rw [two] at read
      rw [List.cons_append, escapedChar_hex, read, List.length_cons, two]
      rfl
  | @unicode ds c four code =>
      have read := code.codePointEscape_append rest
      rw [four] at read
      rw [List.cons_append, escapedChar_unicode, read, List.length_cons, four]
      rfl
  | @octal ds c few code =>
      have run : ((ds ++ rest).take 3).takeWhile (fun d => (digitOf? 8 d).isSome) = ds :=
        takeWhile_take_stop (fun d => code.isSome_of_mem) few (stops.octal ds rfl)
      rw [List.cons_append, escapedChar_octal]
      simp only [run, code.codePointEscape_append rest]
      rfl
  | @decimal d c ds several nonzero code =>
      have digits : ∀ e ∈ d :: ds, e.isDigit = true := fun e he =>
        isDigit_of_digitOf? (Nat.le_refl 10) (code.isSome_of_mem he)
      have digit := digits d (by simp)
      have run : (d :: ds ++ rest).takeWhile Char.isDigit = d :: ds :=
        takeWhile_append_stop digits (stops.decimal d ds rfl nonzero digit)
      have two : ¬(d :: ds).length < 2 := by
        have := List.length_pos_iff.2 several
        simp only [List.length_cons]
        omega
      have read := code.codePointEscape_append rest
      rw [List.cons_append] at run read ⊢
      rw [escapedChar_decimal digit nonzero, run, if_neg two, read]
      rfl
  | itself other =>
      have plain (d : Char) (word : d.isAlphanum = true) : c ≠ d := by
        rintro rfl
        simp [word] at other
      have control : controlEscape? c = none := by
        cases known : controlEscape? c with
        | none => rfl
        | some d => simp [isAlphanum_of_controlEscape? known] at other
      have digit : c.isDigit = false := by
        simp only [Char.isAlphanum, Bool.or_eq_false_iff] at other
        exact other.2
      have reserved : isReservedEscape c = false := by
        cases known : isReservedEscape c with
        | false => rfl
        | true => simp [isAlphanum_of_isReservedEscape known] at other
      simp [escapedChar, control, plain 'x' rfl, plain 'u' rfl, plain '0' rfl, digit, reserved,
        other]

theorem stops_of_escapedChar (h : escapedChar (w ++ rest) = .ok (some (c, w.length))) :
    Stops w rest where
  octal := by
    rintro ds rfl
    rw [List.cons_append, escapedChar_octal] at h
    have length := Nat.succ.inj (spelled_eq_ok h).2
    exact (stop_of_takeWhile_take length).2.2
  decimal := by
    rintro d ds rfl nonzero digit
    rw [List.cons_append, escapedChar_decimal digit nonzero] at h
    split at h
    · cases h
    · have length : ((d :: ds ++ rest).takeWhile Char.isDigit).length = (d :: ds).length :=
        (spelled_eq_ok h).2
      exact (stop_of_takeWhile_append (takeWhile_eq_of_length length)).2

end PatternSampler.Grammar
