import PatternSampler.Phrase.Reader
import PatternSampler.Proofs.Token.Inside

/-!
# What a token depends on

A token depends on its own characters and on little of what follows: a quantifier looks
for the question mark of its lazy modifier, and a run of digits for one more digit.  So a
text is cut into the same tokens when what follows them changes to something that begins
neither way.
-/

namespace PatternSampler

theorem withLazy_append {own rest after : List Char} {q : Quantifier} {n : Nat} (some : 1 ≤ n)
    (inside : n ≤ own.length) (whole : (withLazy (own ++ rest) q n).2 = own.length)
    (replaces : Replaces after rest) :
    withLazy (own ++ after) q n = withLazy (own ++ rest) q n := by
  rcases Nat.lt_or_eq_of_le inside with shorter | rfl
  · have same (x : List Char) : (own ++ x)[n]? = own[n]? := List.getElem?_append_left shorter
    simp only [withLazy, same]
  · have next (x : List Char) : (own ++ x)[own.length]? = x.head? := by
      rw [List.getElem?_append_right (Nat.le_refl _), Nat.sub_self, List.head?_eq_getElem?]
    have last : rest.head? ≠ Option.some '?' := by
      intro lazy
      simp [withLazy, next, lazy] at whole
    simp [withLazy, next, last, replaces.not_lazy last]

theorem scanBraces_append {inner : List Char} (some : inner ≠ []) (rest after : List Char) :
    scanBraces (inner ++ '\x7d' :: after) = scanBraces (inner ++ '\x7d' :: rest) := by
  have stops : Char.isDigit '\x7d' = false := by decide
  have second (x : List Char) :
      (inner ++ '\x7d' :: x)[1]? = Option.some (inner.tail.headD '\x7d') := by
    match inner with
    | [c] => rfl
    | c :: d :: inner => rfl
  have inside : (if Option.some (inner.tail.headD '\x7d') == Option.some '=' then 2 else 1) ≤
      inner.length := by
    match inner with
    | [c] => exact Nat.le_refl 1
    | c :: d :: inner =>
        split
        · exact Nat.le_add_left 2 _
        · exact Nat.le_add_left 1 _
  simp only [scanBraces, second]
  generalize (if Option.some (inner.tail.headD '\x7d') == Option.some '=' then 2 else 1) =
    start at *
  simp only [List.drop_append_of_le_length inside, takeWhile_append_cons stops]
  have digits := (List.takeWhile_prefix Char.isDigit (l := inner.drop start)).length_le
  rw [List.length_drop] at digits
  have comma : start + ((inner.drop start).takeWhile Char.isDigit).length ≤ inner.length := by omega
  simp only [List.drop_append_of_le_length comma]
  refine bind_congr fun min => ?_
  split
  · rfl
  · cases inner.drop (start + ((inner.drop start).takeWhile Char.isDigit).length) with
    | nil => rfl
    | cons c high =>
        by_cases more : c = ','
        · subst more
          simp only [List.cons_append, takeWhile_append_cons stops, dropWhile_append_cons stops]
          refine bind_congr fun max => ?_
          cases high.takeWhile Char.isDigit with
          | nil =>
              cases high.dropWhile Char.isDigit with
              | nil => rfl
              | cons d tail => split <;> split <;> simp_all
          | cons digit digits =>
              cases high.dropWhile Char.isDigit with
              | nil => rfl
              | cons d tail => split <;> split <;> simp_all
        · split <;> split <;> simp_all

/-- A token that the reader may take: nothing invalid and no malformed quantifier. -/
def Token.Sound : Token → Prop
  | invalid _ => False
  | quantifier (.error _) => False
  | _ => True

theorem eq_of_append_eq {front own tail rest : List Char} {c : Char}
    (h : front ++ c :: tail = own ++ rest) (length : own.length = front.length + 1) :
    own = front ++ [c] := by
  obtain ⟨more, rfl, -⟩ := exists_of_append_eq h (Nat.le_of_eq length.symm)
  obtain rfl : more = [] := by
    rw [List.length_append, List.length_cons] at length
    exact List.eq_nil_of_length_eq_zero (by omega)
  rfl

theorem groupName?_append {name : List Char} (rest after : List Char)
    (h : groupName? (name ++ '>' :: rest) = some name) :
    groupName? (name ++ '>' :: after) = some name := by
  obtain ⟨nonempty, all, -⟩ := groupName?_eq_some.1 h
  exact groupName?_eq_some.2 ⟨nonempty, all, after, rfl⟩

theorem scanOpening_append {c : Char} {w rest after : List Char} {t : Token}
    (h : scanOpening (c :: (w ++ rest)) = (t, w.length + 1)) (sound : t.Sound)
    (replaces : Replaces after rest) :
    scanOpening (c :: (w ++ after)) = (t, w.length + 1) := by
  unfold scanOpening at h
  split at h
  · rename_i text
    obtain ⟨rfl, length⟩ := Prod.mk.inj h
    obtain ⟨-, text⟩ := List.cons.inj text
    have own : w = ['?'] ++ [':'] := eq_of_append_eq text.symm (by simpa using length.symm)
    rw [own]
    rfl
  · rename_i tail text
    obtain ⟨-, text⟩ := List.cons.inj text
    split at h
    · rename_i name found
      obtain ⟨rfl, length⟩ := Prod.mk.inj h
      obtain ⟨-, -, more, rfl⟩ := groupName?_eq_some.1 found
      have own : w = ('?' :: '<' :: name) ++ ['>'] :=
        eq_of_append_eq text.symm (by simp only [List.length_cons]; omega)
      subst own
      simp only [List.cons_append, List.append_assoc, scanOpening, List.nil_append,
        groupName?_append more after found, length]
    · obtain ⟨rfl, -⟩ := Prod.mk.inj h
      exact sound.elim
  · obtain ⟨rfl, -⟩ := Prod.mk.inj h
    exact sound.elim
  · rename_i other
    obtain ⟨rfl, length⟩ := Prod.mk.inj h
    obtain rfl : w = [] := List.eq_nil_of_length_eq_zero (by omega)
    simp only [List.nil_append] at other ⊢
    have last : rest.head? ≠ some '?' := by
      intro lazy
      obtain ⟨tail, rfl⟩ := List.head?_eq_some_iff.1 lazy
      exact other c tail rfl
    have next := replaces.not_lazy last
    unfold scanOpening
    split <;> simp_all

theorem scanBracket_append {w rest after : List Char} {t : Token}
    (h : scanBracket (w ++ rest) = (t, w.length)) (sound : t.Sound) :
    scanBracket (w ++ after) = (t, w.length) := by
  cases named : className? (w ++ rest) with
  | some name =>
      obtain ⟨nonempty, all, tail, text⟩ := className?_eq_some.1 named
      have length : w.length = name.length + 4 := by
        rw [scanBracket, named] at h
        dsimp only at h
        split at h
        · exact (Prod.mk.inj h).2.symm
        · split at h
          · exact (Prod.mk.inj h).2.symm
          · obtain ⟨rfl, -⟩ := Prod.mk.inj h
            exact sound.elim
      have own : w = ('[' :: ':' :: name ++ [':']) ++ [']'] :=
        eq_of_append_eq (by simpa using text.symm) (by simp [length])
      have same : className? (w ++ after) = Option.some name :=
        className?_eq_some.2 ⟨nonempty, all, after, by simp [own]⟩
      rw [scanBracket, named] at h
      rw [scanBracket, same]
      exact h
  | none =>
      rw [scanBracket, named] at h
      dsimp only at h
      split at h
      · rename_i members n scanned
        obtain ⟨rfl, rfl⟩ := Prod.mk.inj h
        obtain ⟨inner, tail, text, length⟩ := scanClass_consumes scanned
        have own : w = inner ++ [']'] := eq_of_append_eq text.symm length
        have same : className? (w ++ after) = Option.none := by
          rw [own, List.append_assoc] at named ⊢
          exact (className?_append inner rest after).trans named
        rw [scanBracket, same, scanClass_append scanned]
      · obtain ⟨rfl, -⟩ := Prod.mk.inj h
        exact sound.elim

theorem scanEscape_other {d : Char} (notMarker : d ≠ 'i') (notName : d ≠ 'k') (rest : List Char) :
    scanEscape (d :: rest) = match CharClass.shorthand? d with
      | some members => (.set members, 2)
      | none => match escapedChar (d :: rest) with
        | .error flaw => (.invalid ⟨0, flaw⟩, 1)
        | .ok (some (c, length)) => (.literal c, length + 1)
        | .ok none => (.reference (.number d), 2) := by
  unfold scanEscape
  split
  · rename_i starts
    exact absurd (List.cons.inj starts).1 notMarker
  · rename_i starts
    exact absurd (List.cons.inj starts).1 notName
  · rename_i starts
    exact absurd (List.cons.inj starts).1 notName
  · rfl

theorem two_le_of_scanEscape {rest : List Char} {t : Token} {n : Nat}
    (h : scanEscape rest = (t, n)) (sound : t.Sound) : 2 ≤ n := by
  unfold scanEscape at h
  split at h
  · cases h
    exact Nat.le_refl 2
  · split at h <;> cases h
    · omega
    · exact sound.elim
  · cases h
    exact sound.elim
  · split at h
    · cases h
      exact Nat.le_refl 2
    · split at h <;> cases h
      · exact sound.elim
      · rename_i escaped
        exact Nat.succ_le_succ (bounds_of_escapedChar escaped).1
      · exact Nat.le_refl 2

theorem scanEscape_name_append {w rest after : List Char} {t : Token}
    (h : scanEscape ('k' :: (w ++ rest)) = (t, w.length + 2)) (sound : t.Sound) :
    scanEscape ('k' :: (w ++ after)) = (t, w.length + 2) := by
  unfold scanEscape at h
  split at h
  · rename_i starts
    cases starts
  · rename_i tail text
    obtain ⟨-, text⟩ := List.cons.inj text
    split at h
    · rename_i name found
      obtain ⟨rfl, length⟩ := Prod.mk.inj h
      obtain ⟨-, -, more, rfl⟩ := groupName?_eq_some.1 found
      have own : w = ('<' :: name) ++ ['>'] :=
        eq_of_append_eq text.symm (by simp only [List.length_cons] at length ⊢; omega)
      subst own
      simp only [List.cons_append, List.append_assoc, scanEscape, List.nil_append,
        groupName?_append more after found, length]
    · obtain ⟨rfl, -⟩ := Prod.mk.inj h
      exact sound.elim
  · obtain ⟨rfl, -⟩ := Prod.mk.inj h
    exact sound.elim
  · rename_i other
    exact absurd rfl (other _)

theorem scanEscape_append {w rest after : List Char} {t : Token}
    (h : scanEscape (w ++ rest) = (t, w.length + 1)) (sound : t.Sound)
    (replaces : Replaces after rest) : scanEscape (w ++ after) = (t, w.length + 1) := by
  have two := two_le_of_scanEscape h sound
  cases w with
  | nil => simp at two
  | cons d w =>
      rw [List.cons_append] at h ⊢
      by_cases isMarker : d = 'i'
      · subst isMarker
        exact h
      by_cases isName : d = 'k'
      · subst isName
        exact scanEscape_name_append h sound
      rw [scanEscape_other isMarker isName] at h ⊢
      split at h
      · exact h
      · split at h
        · obtain ⟨rfl, -⟩ := Prod.mk.inj h
          exact sound.elim
        · rename_i c n escaped
          obtain ⟨rfl, length⟩ := Prod.mk.inj h
          obtain rfl : n = (d :: w).length := Nat.succ.inj length
          have follows : escapedChar (d :: (w ++ after)) = .ok (some (c, (d :: w).length)) :=
            escapedChar_append (w := d :: w) escaped replaces
          rw [follows]
        · rename_i escaped
          obtain ⟨rfl, length⟩ := Prod.mk.inj h
          obtain rfl : w = [] := by
            rw [List.length_cons] at length
            exact List.eq_nil_of_length_eq_zero (by omega)
          rw [List.nil_append] at escaped ⊢
          rw [escapedChar_none_append escaped replaces]
          rfl

theorem scanBraces_replaced {w rest after : List Char} {q : Quantifier} {n : Nat}
    (scanned : scanBraces ('\x7b' :: (w ++ rest)) = .ok (q, n)) (inside : n ≤ w.length + 1) :
    scanBraces ('\x7b' :: (w ++ after)) = .ok (q, n) := by
  obtain ⟨inner, tail, text, rfl⟩ := scanBraces_consumes scanned
  have text' : inner ++ '\x7d' :: tail = ('\x7b' :: w) ++ rest := text.symm
  obtain ⟨more, own, -⟩ := exists_of_append_eq text' inside
  have some : inner ≠ [] := by
    rintro rfl
    cases own
  have braces (x : List Char) : '\x7b' :: (w ++ x) = inner ++ '\x7d' :: (more ++ x) := by
    rw [← List.cons_append, own, List.append_assoc, List.cons_append]
  rw [braces after, scanBraces_append some (more ++ rest), ← braces rest]
  exact scanned

/-- A token that the reader may take is scanned again when what follows it is replaced. -/
theorem scanToken_append {c : Char} {w rest after : List Char} {t : Token}
    (h : scanToken c (w ++ rest) = (t, w.length + 1)) (sound : t.Sound)
    (replaces : Replaces after rest) : scanToken c (w ++ after) = (t, w.length + 1) := by
  have lazy {q : Quantifier} {n : Nat} (some : 1 ≤ n) (inside : n ≤ w.length + 1)
      (h : withLazy (c :: (w ++ rest)) q n = (t, w.length + 1)) :
      withLazy (c :: (w ++ after)) q n = (t, w.length + 1) := by
    have same : withLazy (c :: w ++ after) q n = withLazy (c :: w ++ rest) q n :=
      withLazy_append some inside (congrArg Prod.snd h) replaces
    exact same.trans h
  unfold scanToken at h
  split at h
  · exact h
  · exact h
  · exact h
  · exact h
  · exact scanOpening_append h sound replaces
  · exact h
  · exact scanBracket_append (w := '[' :: w) h sound
  · obtain ⟨rfl, -⟩ := Prod.mk.inj h
    exact sound.elim
  · exact lazy (Nat.le_refl 1) (Nat.le_add_left 1 _) h
  · exact lazy (Nat.le_refl 1) (Nat.le_add_left 1 _) h
  · exact lazy (Nat.le_refl 1) (Nat.le_add_left 1 _) h
  · split at h
    · rename_i bounds n scanned
      have some : 1 ≤ n := by
        obtain ⟨inner, -, -, rfl⟩ := scanBraces_consumes scanned
        exact Nat.le_add_left 1 _
      have inside : n ≤ w.length + 1 := by
        have length := congrArg Prod.snd h
        simp only [withLazy] at length
        split at length <;> omega
      have follows : scanBraces ('\x7b' :: (w ++ after)) = .ok (bounds, n) :=
        scanBraces_replaced scanned inside
      simp only [scanToken, follows]
      exact lazy some inside h
    · obtain ⟨rfl, -⟩ := Prod.mk.inj h
      exact sound.elim
  · exact scanEscape_append h sound replaces
  · rename_i plain
    unfold scanToken
    split <;> simp_all

/-- The text `u`, before which `skip` characters are already taken, is cut into `ts` where
`v` follows it. -/
inductive Cuts (v : List Char) : (position skip : Nat) → (u : List Char) → List (Nat × Token) → Prop
  | done (position : Nat) : Cuts v position 0 [] []
  | skip {position skip : Nat} {c : Char} {u : List Char} {ts : List (Nat × Token)}
      (rest : Cuts v (position + 1) skip u ts) : Cuts v position (skip + 1) (c :: u) ts
  | token {position n : Nat} {c : Char} {u : List Char} {t : Token} {ts : List (Nat × Token)}
      (scan : scanToken c (u ++ v) = (t, n)) (sound : t.Sound)
      (rest : Cuts v (position + 1) (n - 1) u ts) :
      Cuts v position 0 (c :: u) ((position, t) :: ts)

theorem tokensFrom_cons {position n : Nat} {c : Char} {rest : List Char} {t : Token}
    (scan : scanToken c rest = (t, n)) (sound : t.Sound) :
    tokensFrom position 0 (c :: rest) =
      (position, t) :: tokensFrom (position + 1) (n - 1) rest := by
  rw [tokensFrom, scan]
  cases t with
  | invalid e => exact sound.elim
  | _ => rfl

theorem exists_tokensFrom (position : Nat) (c : Char) (rest : List Char) :
    ∃ others, tokensFrom position 0 (c :: rest) = (position, (scanToken c rest).1) :: others := by
  unfold tokensFrom
  split
  · rename_i scan
    exact ⟨[], by rw [scan]⟩
  · rename_i scan
    exact ⟨_, by rw [scan]⟩

namespace Cuts

variable {u v : List Char} {position skip : Nat} {ts : List (Nat × Token)}

theorem tokensFrom_eq (h : Cuts v position skip u ts) :
    tokensFrom position skip (u ++ v) = ts ++ tokensFrom (position + u.length) 0 v := by
  induction h with
  | done position => simp
  | skip rest ih =>
      rw [List.cons_append, tokensFrom, ih, List.length_cons, Nat.add_assoc, Nat.add_comm 1]
  | token scan sound rest ih =>
      rw [List.cons_append, tokensFrom_cons scan sound, ih, List.cons_append, List.length_cons,
        Nat.add_assoc, Nat.add_comm 1]

theorem skip_le (h : Cuts v position skip u ts) : skip ≤ u.length := by
  induction h with
  | done position => exact Nat.le_refl 0
  | skip rest ih => exact Nat.succ_le_succ ih
  | token scan sound rest ih => exact Nat.zero_le _

theorem replace (h : Cuts v position skip u ts) {after : List Char} (apart : Apart after) :
    Cuts after position skip u ts := by
  induction h with
  | done position => exact .done position
  | skip rest ih => exact .skip ih
  | @token position n c u t ts scan sound rest ih =>
      have own : (u.take (n - 1)).length + 1 = n := by
        have := bounds_of_scanToken c (u ++ v)
        rw [scan] at this
        rw [List.length_take_of_le rest.skip_le]
        omega
      have split (x : List Char) : u ++ x = u.take (n - 1) ++ (u.drop (n - 1) ++ x) := by
        rw [← List.append_assoc, List.take_append_drop]
      have replaces : Replaces (u.drop (n - 1) ++ after) (u.drop (n - 1) ++ v) := by
        cases u.drop (n - 1) with
        | nil => exact .inr apart
        | cons d rest => exact .inl rfl
      refine .token ?_ sound ih
      rw [split] at scan ⊢
      conv at scan => rhs; rw [← own]
      rw [scanToken_append scan sound replaces, own]

end Cuts

theorem exists_cuts {position skip i : Nat} {cs : List Char} {t : Token}
    {before rest : List (Nat × Token)}
    (h : tokensFrom position skip cs = before ++ (i, t) :: rest)
    (sound : ∀ t ∈ before, t.2.Sound) :
    ∃ u v, cs = u ++ v ∧ i = position + u.length ∧ Cuts v position skip u before ∧
      tokensFrom i 0 v = (i, t) :: rest := by
  induction cs generalizing position skip before with
  | nil => simp [tokensFrom] at h
  | cons c cs ih =>
      cases skip with
      | succ skip =>
          obtain ⟨u, v, rfl, place, cuts, next⟩ := ih h sound
          exact ⟨c :: u, v, rfl, by rw [place, List.length_cons]; omega, .skip cuts, next⟩
      | zero =>
          have scan : scanToken c cs = ((scanToken c cs).1, (scanToken c cs).2) := rfl
          obtain ⟨others, starts⟩ := exists_tokensFrom position c cs
          cases before with
          | nil =>
              rw [starts] at h
              obtain rfl : position = i := congrArg Prod.fst (List.cons.inj h).1
              exact ⟨[], c :: cs, rfl, rfl, .done position, starts.trans h⟩
          | cons b before =>
              obtain ⟨hb, hbefore⟩ := List.forall_mem_cons.1 sound
              have first : (position, (scanToken c cs).1) = b := by
                rw [starts] at h
                exact (List.cons.inj h).1
              subst first
              rw [tokensFrom_cons scan hb] at h
              obtain ⟨u, v, rfl, place, cuts, next⟩ := ih (List.cons.inj h).2 hbefore
              refine ⟨c :: u, v, rfl, by rw [place, List.length_cons]; omega, ?_, next⟩
              exact .token scan hb cuts

theorem cuts_of_sound {position skip : Nat} {cs : List Char} (inside : skip ≤ cs.length)
    (sound : ∀ t ∈ tokensFrom position skip cs, t.2.Sound) :
    Cuts [] position skip cs (tokensFrom position skip cs) := by
  induction cs generalizing position skip with
  | nil =>
      obtain rfl : skip = 0 := Nat.le_zero.1 inside
      exact .done position
  | cons c cs ih =>
      cases skip with
      | succ skip => exact .skip (ih (Nat.le_of_succ_le_succ inside) sound)
      | zero =>
          have scan : scanToken c cs = ((scanToken c cs).1, (scanToken c cs).2) := rfl
          obtain ⟨others, starts⟩ := exists_tokensFrom position c cs
          have hb : (scanToken c cs).1.Sound := sound (position, _) (starts ▸ List.mem_cons_self)
          have bounds := bounds_of_scanToken c cs
          rw [tokensFrom_cons scan hb] at sound ⊢
          refine .token (by rw [List.append_nil]) hb (ih ?_ (List.forall_mem_cons.1 sound).2)
          omega

/-! ## Tokens without their positions -/

def kinds (text : List Char) : List Token := (tokens text).map Prod.snd

theorem map_tokensFrom (position position' skip : Nat) (cs : List Char) :
    (tokensFrom position skip cs).map Prod.snd = (tokensFrom position' skip cs).map Prod.snd := by
  induction cs generalizing position position' skip with
  | nil => rfl
  | cons c cs ih =>
      cases skip with
      | succ skip => exact ih _ _ _
      | zero =>
          unfold tokensFrom
          split
          · rfl
          · rw [List.map_cons, List.map_cons, ih _ (position' + 1)]

theorem Cuts.kinds_eq {u v : List Char} {ts : List (Nat × Token)} (h : Cuts v 0 0 u ts) :
    kinds (u ++ v) = ts.map Prod.snd ++ kinds v := by
  rw [kinds, tokens, h.tokensFrom_eq, List.map_append, map_tokensFrom _ 0]
  rfl

/-- A text without unsound tokens is cut alike in front of what can stand behind it. -/
theorem kinds_append {u after : List Char} (sound : ∀ t ∈ kinds u, t.Sound)
    (apart : Apart after) : kinds (u ++ after) = kinds u ++ kinds after := by
  have cuts : Cuts [] 0 0 u (tokens u) :=
    cuts_of_sound (Nat.zero_le _) fun t ht => sound t.2 (List.mem_map_of_mem ht)
  exact (cuts.replace apart).kinds_eq

end PatternSampler
