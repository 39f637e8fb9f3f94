import Mathlib.Data.List.Basic
import Mathlib.Data.List.TakeWhile
import PatternSampler.Proofs.Token.Locality

/-!
# Writing tokens

The texts of groups and quantifiers, and the tokens that they are read as wherever they
stand.  A count is written in decimal digits and read back as itself.
-/

namespace PatternSampler

theorem Cuts.skipped {v : List Char} (position : Nat) (u : List Char) :
    Cuts v position u.length u [] := by
  induction u generalizing position with
  | nil => exact .done position
  | cons c u ih => exact .skip (ih (position + 1))

theorem kinds_cons {c : Char} {w rest : List Char} {t : Token}
    (scan : scanToken c (w ++ rest) = (t, w.length + 1)) (sound : t.Sound) :
    kinds (c :: (w ++ rest)) = t :: kinds rest := by
  have cuts : Cuts rest 0 0 (c :: w) [(0, t)] := .token scan sound (.skipped 1 w)
  exact cuts.kinds_eq

theorem kinds_bar (rest : List Char) : kinds ('|' :: rest) = .bar :: kinds rest :=
  kinds_cons (w := []) rfl trivial

theorem kinds_closing (rest : List Char) : kinds (')' :: rest) = .closing :: kinds rest :=
  kinds_cons (w := []) rfl trivial

theorem kinds_plain (rest : List Char) :
    kinds ('(' :: '?' :: ':' :: rest) = .opening .plain :: kinds rest :=
  kinds_cons (w := ['?', ':']) rfl trivial

theorem kinds_capturing {rest : List Char} (other : rest.head? ≠ some '?') :
    kinds ('(' :: rest) = .opening (.capturing none) :: kinds rest := by
  refine kinds_cons (w := []) ?_ trivial
  rw [List.nil_append]
  cases rest with
  | nil => rfl
  | cons c rest =>
      have other : c ≠ '?' := by simpa using other
      simp only [scanToken, scanOpening]
      split <;> simp_all

theorem kinds_enclosed {u : List Char} (sound : ∀ t ∈ kinds u, t.Sound) (rest : List Char) :
    kinds (u ++ ')' :: rest) = kinds u ++ .closing :: kinds rest := by
  rw [kinds_append sound (apart_cons (by decide) (by decide)), kinds_closing]

theorem digitOf?_of_isDigit {c : Char} (h : c.isDigit = true) :
    digitOf? 10 c = some (c.toNat - '0'.toNat) := by
  rw [Char.isDigit, Bool.and_eq_true, decide_eq_true_eq, decide_eq_true_eq] at h
  obtain ⟨low, high⟩ := h
  have small : c.toNat - '0'.toNat < 10 := by
    have := UInt32.le_iff_toNat_le.1 high
    change c.toNat ≤ 57 at this
    change c.toNat - 48 < 10
    omega
  have between : '0' ≤ c ∧ c ≤ '9' := ⟨low, high⟩
  simp only [digitOf?, if_pos between, Option.filter_some, decide_eq_true small, if_true]

theorem numberOf_toDigits (n : Nat) :
    numberOf 10 ((Nat.toDigits 10 n).filterMap (digitOf? 10)) = n := by
  have digits : ∀ c ∈ Nat.toDigits 10 n, digitOf? 10 c = some (c.toNat - '0'.toNat) :=
    fun c hc => digitOf?_of_isDigit (Nat.isDigit_of_mem_toDigits (by decide) (by decide) hc)
  calc numberOf 10 ((Nat.toDigits 10 n).filterMap (digitOf? 10))
      = numberOf 10 ((Nat.toDigits 10 n).map fun c => c.toNat - '0'.toNat) := by
        rw [List.filterMap_eq_map_iff_forall_eq_some.2 digits]
    _ = Nat.ofDigitChars 10 (Nat.toDigits 10 n) 0 := by
        rw [numberOf, List.foldl_map, Nat.ofDigitChars_eq_foldl]
        simp only [Nat.mul_comm]
    _ = n := Nat.ofDigitChars_toDigits (by decide) (by decide)

structure Decimal (ds : List Char) (n : Nat) : Prop where
  nonempty : ds ≠ []
  digits : ∀ c ∈ ds, c.isDigit = true
  value : numberOf 10 (ds.filterMap (digitOf? 10)) = n

theorem decimal_toDigits (n : Nat) : Decimal (Nat.toDigits 10 n) n :=
  ⟨Nat.toDigits_ne_nil, fun _ hc => Nat.isDigit_of_mem_toDigits (by decide) (by decide) hc,
    numberOf_toDigits n⟩

def openingBrace (same : Bool) : List Char := if same then ['\x7b', '='] else ['\x7b']

theorem length_openingBrace (same : Bool) :
    (if same then 2 else 1) = (openingBrace same).length := by
  cases same <;> rfl

section

variable {n m : Nat} {v w rest lazy : List Char} {c : Char} {q : Quantifier}

theorem Decimal.repeatCount (h : Decimal w n) (small : n ≤ maxRepeat) (position : Nat) :
    repeatCount position w = .ok n := by
  simp [PatternSampler.repeatCount, h.value, Nat.not_lt.2 small]

theorem Decimal.takeWhile (h : Decimal w n) (stops : c.isDigit = false) :
    (w ++ c :: rest).takeWhile Char.isDigit = w := by
  rw [takeWhile_append_cons stops]
  exact List.takeWhile_eq_self_iff.2 h.digits

theorem Decimal.dropWhile (h : Decimal w n) (stops : c.isDigit = false) :
    (w ++ c :: rest).dropWhile Char.isDigit = c :: rest := by
  rw [List.dropWhile_append_of_pos h.digits]
  simp [stops]

theorem Decimal.sign (h : Decimal w n) (same : Bool) (rest : List Char) :
    ((openingBrace same ++ w ++ rest)[1]? == some '=') = same := by
  cases same with
  | true => rfl
  | false =>
      cases w with
      | nil => exact absurd rfl h.nonempty
      | cons d ds =>
          have digit : d.isDigit = true := h.digits d List.mem_cons_self
          have other : d ≠ '=' := by
            rintro rfl
            exact absurd digit (by decide)
          simpa [openingBrace] using other

theorem scanBraces_exact (h : Decimal w n) (same : Bool) (small : n ≤ maxRepeat)
    (rest : List Char) :
    scanBraces (openingBrace same ++ w ++ '\x7d' :: rest) =
      .ok (⟨n, some n, same⟩, (openingBrace same ++ w).length + 1) := by
  simp only [scanBraces, h.sign, length_openingBrace]
  rw [List.append_assoc, List.drop_left, h.takeWhile (by decide), ← List.append_assoc,
    ← List.length_append, List.drop_left, h.repeatCount small]
  simp [h.nonempty]

theorem scanBraces_atLeast (h : Decimal w n) (same : Bool) (small : n ≤ maxRepeat)
    (rest : List Char) :
    scanBraces (openingBrace same ++ w ++ ',' :: '\x7d' :: rest) =
      .ok (⟨n, none, same⟩, (openingBrace same ++ w).length + 2) := by
  have stops : Char.isDigit '\x7d' = false := by decide
  simp only [scanBraces, h.sign, length_openingBrace]
  rw [List.append_assoc, List.drop_left, h.takeWhile (by decide), ← List.append_assoc,
    ← List.length_append, List.drop_left, h.repeatCount small]
  have unbounded (position : Nat) : repeatCount position [] = .ok 0 := rfl
  simp [h.nonempty, stops, unbounded, Bind.bind, Except.bind, pure, Except.pure]

theorem scanBraces_bounded (low : Decimal v n) (high : Decimal w m) (same : Bool) (le : n ≤ m)
    (small : m ≤ maxRepeat) (rest : List Char) :
    scanBraces (openingBrace same ++ v ++ ',' :: (w ++ '\x7d' :: rest)) =
      .ok (⟨n, some m, same⟩, (openingBrace same ++ v).length + 1 + w.length + 1) := by
  have stops : Char.isDigit '\x7d' = false := by decide
  simp only [scanBraces, low.sign, length_openingBrace]
  rw [List.append_assoc, List.drop_left, low.takeWhile (by decide), ← List.append_assoc,
    ← List.length_append, List.drop_left, low.repeatCount (Nat.le_trans le small)]
  simp only [high.takeWhile stops, high.dropWhile stops, high.repeatCount small]
  simp [low.nonempty, high.nonempty, Nat.not_lt.2 le, Bind.bind, Except.bind, pure, Except.pure]

theorem kinds_braces {cs : List Char} (starts : cs.head? = some '\x7b')
    (suffix : lazy = [] ∨ lazy = ['?']) (scan : scanBraces (cs ++ lazy) = .ok (q, cs.length)) :
    kinds (cs ++ lazy) = [.quantifier (.ok q)] := by
  obtain ⟨inner, rfl⟩ := List.head?_eq_some_iff.1 starts
  have token : scanToken '\x7b' (inner ++ lazy ++ []) =
      (.quantifier (.ok q), (inner ++ lazy).length + 1) := by
    rw [List.append_nil]
    simp only [List.cons_append] at scan
    simp only [scanToken, scan, withLazy]
    rcases suffix with rfl | rfl <;> simp
  have alone := kinds_cons token trivial
  rwa [List.append_nil] at alone

theorem head?_openingBrace (same : Bool) (rest : List Char) :
    (openingBrace same ++ w ++ rest).head? = some '\x7b' := by
  cases same <;> rfl

theorem kinds_exact (h : Decimal w n) (same : Bool) (small : n ≤ maxRepeat)
    (suffix : lazy = [] ∨ lazy = ['?']) :
    kinds (openingBrace same ++ w ++ ['\x7d'] ++ lazy) =
      [.quantifier (.ok ⟨n, some n, same⟩)] := by
  apply kinds_braces (head?_openingBrace same _) suffix
  rw [List.append_assoc, List.singleton_append, scanBraces_exact h same small]
  simp [Nat.add_assoc]

theorem kinds_atLeast (h : Decimal w n) (same : Bool) (small : n ≤ maxRepeat)
    (suffix : lazy = [] ∨ lazy = ['?']) :
    kinds (openingBrace same ++ w ++ [',', '\x7d'] ++ lazy) =
      [.quantifier (.ok ⟨n, none, same⟩)] := by
  apply kinds_braces (head?_openingBrace same _) suffix
  rw [List.append_assoc]
  simp only [List.cons_append, List.nil_append]
  rw [scanBraces_atLeast h same small]
  simp [Nat.add_assoc]

theorem kinds_bounded (low : Decimal v n) (high : Decimal w m) (same : Bool) (le : n ≤ m)
    (small : m ≤ maxRepeat) (suffix : lazy = [] ∨ lazy = ['?']) :
    kinds (openingBrace same ++ v ++ ',' :: (w ++ ['\x7d']) ++ lazy) =
      [.quantifier (.ok ⟨n, some m, same⟩)] := by
  apply kinds_braces (head?_openingBrace same _) suffix
  rw [List.append_assoc]
  simp only [List.cons_append, List.append_assoc, List.nil_append]
  rw [← List.append_assoc, scanBraces_bounded low high same le small]
  simp [Nat.add_assoc, Nat.add_comm 1]

end

end PatternSampler
