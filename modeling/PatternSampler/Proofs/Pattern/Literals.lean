import PatternSampler.Proofs.Grammar.Brackets
import PatternSampler.Proofs.Pattern.Markers

/-!
# Literal text

A character can be written as it is or as an escape.  However the characters of a text are
written, they are read back as one text, and a quantifier behind them repeats the last of them
alone.
-/

namespace PatternSampler

namespace Grammar

/-- `Spelling text chars`: every character in turn is written as it is, unless it means something
in a pattern, or as one of its escapes.  No escape may be continued by what is written next. -/
inductive Spelling : List Char → List Char → Prop
  | nil : Spelling [] []
  | plain {text chars : List Char} {c : Char} (h : c ∉ metaChars) (rest : Spelling text chars) :
      Spelling (c :: text) (c :: chars)
  | escaped {w text chars : List Char} {c : Char} (escape : Escape w c) (stops : Stops w text)
      (rest : Spelling text chars) : Spelling ('\\' :: (w ++ text)) (c :: chars)

variable {w text chars rest after : List Char} {c : Char} {q : Quantifier} {n : Nat}

theorem Stops.append (h : Stops w rest) (next : ∀ c ∈ after.head?, c.isDigit = false) :
    Stops w (rest ++ after) := by
  cases rest with
  | cons d rest => exact ⟨h.octal, h.decimal⟩
  | nil =>
      refine ⟨fun ds _ => .inr fun c first => ?_, fun _ _ _ _ _ => next⟩
      have other := next c first
      rw [← Bool.not_eq_true] at other ⊢
      exact fun digit => other (isDigit_of_digitOf? (by decide) digit)

theorem stops_of_first {d : Char} (other : d.isDigit = false) (v rest : List Char) :
    Stops (d :: v) rest where
  octal := by
    rintro ds ⟨⟩
    cases other
  decimal := by
    rintro _ _ ⟨⟩ - digit
    rw [other] at digit
    cases digit

theorem stops_of_octal {ds : List Char} (three : ds.length = 3) (rest : List Char) :
    Stops ('0' :: ds) rest where
  octal := by
    rintro _ ⟨⟩
    exact .inl three
  decimal := by
    rintro _ _ ⟨⟩ nonzero
    exact absurd rfl nonzero

theorem scanToken_plain (h : c ∉ metaChars) (rest : List Char) :
    scanToken c rest = (.literal c, 1) := by
  unfold scanToken
  split <;> first | rfl | exact absurd (by decide) h

theorem ne_of_escapedChar (spelled : escapedChar (w ++ rest) = .ok (some (c, n))) :
    (w ++ rest).head? ≠ some 'i' ∧ (w ++ rest).head? ≠ some 'k' := by
  constructor <;>
  · intro starts
    obtain ⟨others, same⟩ := List.head?_eq_some_iff.1 starts
    rw [same] at spelled
    exact absurd spelled (by simp [escapedChar, controlEscape?, isReservedEscape])

theorem scanToken_escaped (escape : Escape w c) (stops : Stops w rest) :
    scanToken '\\' (w ++ rest) = (.literal c, w.length + 1) := by
  have spelled := escapedChar_of_escape escape stops
  have letter := not_shorthand_of_escapedChar spelled
  obtain ⟨notMarker, notName⟩ := ne_of_escapedChar spelled
  change scanEscape (w ++ rest) = _
  cases text : w ++ rest with
  | nil => simp [text, escapedChar] at spelled
  | cons d others =>
      simp only [text, List.head?_cons, ne_eq, Option.some.injEq, Option.bind_some] at *
      rw [scanEscape_other notMarker notName, letter, spelled]

theorem Spelling.kinds_append (h : Spelling text chars)
    (next : ∀ c ∈ after.head?, c.isDigit = false) :
    kinds (text ++ after) = chars.map .literal ++ kinds after := by
  induction h with
  | nil => rfl
  | @plain text chars c h _ ih =>
      have token : kinds (c :: (text ++ after)) = .literal c :: kinds (text ++ after) :=
        kinds_cons (w := []) (scanToken_plain h (text ++ after)) trivial
      rw [List.cons_append, token, ih]
      rfl
  | @escaped w text chars c escape stops _ ih =>
      have token := kinds_cons (scanToken_escaped escape (stops.append next)) trivial
      rw [List.cons_append, List.append_assoc, token, ih]
      rfl

theorem Count.decimal (h : Count w n) : Decimal w n := by
  have digits : ∀ c ∈ w, c.isDigit = true := fun c hc =>
    isDigit_of_digitOf? (Nat.le_refl 10) (h.numeral.isSome_of_mem hc)
  obtain ⟨values, read, value⟩ := h.numeral.exists_values
  rw [mapM_digitOf? digits] at read
  cases read
  exact ⟨h.some, digits, value⟩

theorem openingBrace_eq (same : Bool) : openingBrace same = '\x7b' :: optionally same ['='] := by
  cases same <;> rfl

theorem optionally_eq (present : Bool) (w : List Char) :
    optionally present w = [] ∨ optionally present w = w := by
  cases present
  · exact .inl rfl
  · exact .inr rfl

theorem Bounds.kinds_eq (h : Bounds w q) (isLazy : Bool) :
    kinds (w ++ optionally isLazy ['?']) = [.quantifier (.ok q)] := by
  have suffix := optionally_eq isLazy ['?']
  cases h with
  | question | star | plus => cases isLazy <;> rfl
  | exactly same count =>
      simpa [openingBrace_eq] using kinds_exact count.decimal same count.le suffix
  | atLeast same low =>
      simpa [openingBrace_eq] using kinds_atLeast low.decimal same low.le suffix
  | between same low high ordered =>
      simpa [openingBrace_eq] using
        kinds_bounded low.decimal high.decimal same ordered high.le suffix

theorem Bounds.head?_isDigit (h : Bounds w q) (rest : List Char) :
    ∀ c ∈ (w ++ rest).head?, c.isDigit = false := by
  cases h <;> simp

end Grammar

def Node.lastRepeated (own : Bool) (q : Quantifier) (init : List Char) (last : Char) : Node :=
  if init = [] then .rep ⟨1, own⟩ q (.text ⟨0, false⟩ [last])
  else .seq ⟨3, false⟩ [.text ⟨0, false⟩ init, .rep ⟨2, own⟩ q (.text ⟨1, false⟩ [last])]

namespace Reader

variable (init : List Char) (last : Char) (own : Bool) (q : Quantifier)

theorem advance?_literals : start.advance? ((init ++ [last]).map .literal) =
    some { start with level := ⟨[], [], .literals false init.reverse last⟩ } := by
  induction init using List.reverseRecOn generalizing last with
  | nil => rfl
  | append_singleton init c ih =>
      rw [List.map_append, advance?_append, ih c, List.reverse_append]
      rfl

theorem advance?_lastRepeated :
    advance? { start with level := ⟨[], [], .literals false init.reverse last⟩ }
        ((if own then [.marker] else []) ++ [.quantifier (.ok q)]) =
      some { start with
        level := ⟨[], if init = [] then [] else [.text init],
          .quantified (.rep own q (.text [last]))⟩
        hasMarker := own } := by
  cases init using List.reverseRecOn with
  | nil => cases own <;> rfl
  | append_singleton init c =>
      have same : init.reverse.reverse ++ [c] = init ++ [c] := by rw [List.reverse_reverse]
      have nonempty : init ++ [c] ≠ [] := by simp
      rw [List.reverse_append, if_neg nonempty, ← same]
      cases own <;> rfl

end Reader

namespace Pattern

open Grammar

variable {text chars : List Char}

/-- Literals alone are one text, and a quantifier behind them takes their last character only,
with or without a marker of its own and whether or not it is lazy. -/
theorem parse_of_spelling (h : Spelling text chars) (some : chars ≠ []) :
    parse (String.ofList text) = .ok ⟨.text ⟨0, false⟩ chars, false, 0⟩ ∧
    ∀ (own isLazy : Bool) {w : List Char} {q : Quantifier}, Bounds w q →
      parse (String.ofList (text ++
          (optionally own marker ++ (w ++ optionally isLazy ['?'])))) =
        .ok ⟨.lastRepeated own q chars.dropLast (chars.getLast some), own, 0⟩ := by
  have split : chars = chars.dropLast ++ [chars.getLast some] :=
    (List.dropLast_append_getLast some).symm
  generalize chars.dropLast = init at split ⊢
  generalize chars.getLast some = last at split ⊢
  subst split
  have literals := Reader.advance?_literals init last
  refine ⟨?_, fun own isLazy w q bounds => ?_⟩
  · have tokens : kinds (text ++ []) = (init ++ [last]).map .literal ++ kinds [] :=
      h.kinds_append (by simp)
    have none : kinds [] = [] := rfl
    rw [none, List.append_nil, List.append_nil] at tokens
    rw [parse_eq_ok, String.toList_ofList, tokens]
    refine ⟨_, literals, rfl, rfl, ?_⟩
    have same : init.reverse.reverse ++ [last] = init ++ [last] := by rw [List.reverse_reverse]
    rw [← same]
    rfl
  · have next : ∀ c ∈ (optionally own marker ++ (w ++ optionally isLazy ['?'])).head?,
        c.isDigit = false := by
      cases own with
      | true => simp [optionally, marker]
      | false => exact bounds.head?_isDigit _
    have behind : kinds (optionally own marker ++ (w ++ optionally isLazy ['?'])) =
        (if own then [.marker] else []) ++ [.quantifier (.ok q)] := by
      rw [← bounds.kinds_eq isLazy]
      cases own with
      | true => exact kinds_marker _
      | false => rfl
    have tokens := h.kinds_append next
    rw [behind] at tokens
    have repeated := Reader.advance?_lastRepeated init last own q
    rw [parse_eq_ok, String.toList_ofList, tokens, Reader.advance?_append, literals]
    refine ⟨_, repeated, rfl, rfl, ?_⟩
    by_cases alone : init = []
    · subst alone
      cases own <;> rfl
    · simp only [Node.lastRepeated, if_neg alone]
      cases own <;> rfl

/-- A full stop is escaped, the letters are given by their code points in four ways, and the
count has a leading zero. -/
theorem parse_of_spelling_mixed : ∃ p,
    parse "-\\.\\n\\x41\\u0042\\0103\\68e\\i\x7b=02,4\x7d?" = .ok p ∧
    p.root = .lastRepeated true ⟨2, some 4, true⟩ ['-', '.', '\n', 'A', 'B', 'C', 'D'] 'e' := by
  have hex : Numeral 16 ['4', '1'] 'A'.toNat :=
    show Numeral 16 _ (numberOf 16 [4, 1]) from numeral_of_mapM rfl
  have unicode : Numeral 16 ['0', '0', '4', '2'] 'B'.toNat :=
    show Numeral 16 _ (numberOf 16 [0, 0, 4, 2]) from numeral_of_mapM rfl
  have octal : Numeral 8 ['1', '0', '3'] 'C'.toNat :=
    show Numeral 8 _ (numberOf 8 [1, 0, 3]) from numeral_of_mapM rfl
  have decimal : Numeral 10 ['6', '8'] 'D'.toNat :=
    show Numeral 10 _ (numberOf 10 [6, 8]) from numeral_of_mapM rfl
  have stops : Stops ['6', '8'] ['e'] := ⟨by rintro _ ⟨⟩, fun _ _ _ _ _ => by simp⟩
  have spelling : Spelling "-\\.\\n\\x41\\u0042\\0103\\68e".toList
      ['-', '.', '\n', 'A', 'B', 'C', 'D', 'e'] :=
    .plain (by decide) <| .escaped (.itself rfl) (stops_of_first rfl [] _) <|
      .escaped (.control rfl) (stops_of_first rfl [] _) <|
      .escaped (.hex rfl hex) (stops_of_first rfl _ _) <|
      .escaped (.unicode rfl unicode) (stops_of_first rfl _ _) <|
      .escaped (.octal (show ['1', '0', '3'].length ≤ 3 by decide) octal) (stops_of_octal rfl _) <|
      .escaped (.decimal (by simp) (by decide) decimal) stops <| .plain (by decide) .nil
  have low : Count ['0', '2'] 2 :=
    ⟨by simp, show Numeral 10 _ (numberOf 10 [0, 2]) from numeral_of_mapM rfl, by decide⟩
  have high : Count ['4'] 4 :=
    ⟨by simp, show Numeral 10 _ (numberOf 10 [4]) from numeral_of_mapM rfl, by decide⟩
  have parsed := (parse_of_spelling spelling (by simp)).2 true true
    (.between true low high (by decide))
  have written : String.ofList ("-\\.\\n\\x41\\u0042\\0103\\68e".toList ++
      (optionally true marker ++ ('\x7b' :: (optionally true ['='] ++ ['0', '2']) ++ ',' :: ['4'] ++
        ['\x7d'] ++ optionally true ['?']))) =
      "-\\.\\n\\x41\\u0042\\0103\\68e\\i\x7b=02,4\x7d?" := rfl
  exact ⟨_, written ▸ parsed, rfl⟩

end Pattern

end PatternSampler
