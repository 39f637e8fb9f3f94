import PatternSampler.Proofs.Pattern.WellFormed
import PatternSampler.Proofs.Phrase.Pieces
import PatternSampler.Proofs.Token.Errors

/-!
# Errors of a pattern point into its text

A reader blames the token at hand, a marker that waits in vain or a parenthesis that nothing
closes.  All of these have been read before, so their positions are positions of the text.
-/

namespace PatternSampler

def Waiting.position? : Waiting → Option Nat
  | none => .none
  | one position | several position => some position

namespace Reader

variable {r s : Reader} {bound i : Nat} {t : Token} {e : PatternError}

/-- All that the reader may blame later on stands in front of `bound`. -/
structure Blames (r : Reader) (bound : Nat) : Prop where
  waiting : ∀ position ∈ r.waiting.position?, position < bound
  groups : ∀ g ∈ r.groups, g.position < bound

theorem blames_start (bound : Nat) : start.Blames bound := ⟨by simp [start, Waiting.position?],
  by simp [start]⟩

theorem Blames.step (h : r.Blames bound) (here : i < bound) (taken : r.step i t = .ok s) :
    s.Blames bound := by
  have unmarked : ∀ position ∈ Waiting.none.position?, position < bound := by
    simp [Waiting.position?]
  cases step_eq_ok.1 taken with
  | literal => exact ⟨unmarked, h.groups⟩
  | marker =>
      refine ⟨fun position waits => ?_, h.groups⟩
      rw [marker] at waits
      cases waiting : r.waiting with
      | none =>
          simp only [waiting, Waiting.add, Waiting.position?, Option.mem_some_iff] at waits
          exact waits ▸ here
      | one | several =>
          refine h.waiting position ?_
          simpa only [waiting, Waiting.add, Waiting.position?] using waits
  | atom => exact ⟨unmarked, h.groups⟩
  | opening kind =>
      cases kind with
      | plain | capturing => exact ⟨unmarked, List.forall_mem_cons.2 ⟨here, h.groups⟩⟩
  | closing _ groups =>
      exact ⟨h.waiting, fun g hg => h.groups g (groups ▸ List.mem_cons_of_mem _ hg)⟩
  | bar => exact ⟨h.waiting, h.groups⟩
  | quantifier => exact ⟨unmarked, h.groups⟩

theorem Blames.index_lt_of_needNoMarker (h : r.Blames bound) (failed : r.needNoMarker = .error e) :
    e.index < bound := by
  have waits := h.waiting
  unfold needNoMarker at failed
  split at failed
  · cases failed
  · rename_i waiting
    cases failed
    exact waits _ (by simp [waiting, Waiting.position?])
  · rename_i waiting
    cases failed
    exact waits _ (by simp [waiting, Waiting.position?])

theorem Blames.index_lt_of_quantify (h : r.Blames bound) (here : i < bound)
    {bounds : Except PatternError Quantifier}
    (inner : ∀ e, bounds = .error e → i + e.index < bound)
    (failed : r.quantify i bounds = .error e) : e.index < bound := by
  have malformed {f : Quantifier → Except PatternError Reader} (total : ∀ q, ∃ s, f q = .ok s)
      (failed : bounds.mapError (PatternError.shift i) >>= f = .error e) : e.index < bound := by
    rcases bind_eq_error.1 failed with wrong | ⟨q, -, wrong⟩
    · cases bounds with
      | ok q => cases wrong
      | error fault =>
          cases wrong
          exact inner fault rfl
    · obtain ⟨s, ok⟩ := total q
      rw [ok] at wrong
      cases wrong
  unfold quantify at failed
  split at failed
  · cases failed
    exact here
  · cases failed
    exact here
  · cases failed
    exact here
  · rename_i waiting _
    cases failed
    exact h.waiting _ (by simp [waiting, Waiting.position?])
  · exact malformed (fun q => ⟨_, rfl⟩) failed
  · exact malformed (fun q => ⟨_, rfl⟩) failed
  · exact malformed (fun q => ⟨_, rfl⟩) failed

theorem Blames.index_lt_of_step (h : r.Blames bound) (here : i < bound)
    (inner : ∀ e ∈ t.error?, i + e.index < bound) (failed : r.step i t = .error e) :
    e.index < bound := by
  cases t with
  | literal | marker | set | guid | anchor | opening => cases failed
  | closing =>
      rcases bind_eq_error.1 failed with waits | ⟨_, -, failed⟩
      · exact h.index_lt_of_needNoMarker waits
      · split at failed <;> cases failed
        exact here
  | bar =>
      rcases bind_eq_error.1 failed with waits | ⟨_, -, failed⟩
      · exact h.index_lt_of_needNoMarker waits
      · cases failed
  | quantifier bounds =>
      refine h.index_lt_of_quantify here (fun e wrong => inner e ?_) failed
      simp [wrong, Token.error?]
  | reference key =>
      unfold Reader.step at failed
      dsimp only at failed
      split at failed <;> cases failed
      exact here
  | invalid fault =>
      cases failed
      exact inner fault rfl

theorem Blames.run {ts : List (Nat × Token)} (h : r.Blames bound)
    (fits : ∀ t ∈ ts, t.1 < bound ∧ ∀ e ∈ t.2.error?, t.1 + e.index < bound) :
    (∀ s, r.run ts = .ok s → s.Blames bound) ∧ ∀ e, r.run ts = .error e → e.index < bound := by
  induction ts generalizing r with
  | nil =>
      refine ⟨fun s taken => ?_, fun e failed => ?_⟩
      · cases taken
        exact h
      · cases failed
  | cons t ts ih =>
      obtain ⟨⟨here, inner⟩, others⟩ := List.forall_mem_cons.1 fits
      rw [Reader.run, List.foldlM_cons]
      cases step : r.step t.1 t.2 with
      | error e =>
          refine ⟨fun s taken => ?_, fun e' failed => ?_⟩
          · cases taken
          · cases failed
            exact h.index_lt_of_step here inner step
      | ok next => exact ih (h.step here step) others

theorem Blames.index_lt_of_finish (h : r.Blames bound) (failed : r.finish = .error e) :
    e.index < bound := by
  rcases bind_eq_error.1 failed with waits | ⟨_, -, failed⟩
  · exact h.index_lt_of_needNoMarker waits
  · split at failed
    · cases failed
    · rename_i g gs groups
      cases failed
      exact h.groups g (groups ▸ List.mem_cons_self)

end Reader

theorem Phrase.index_lt_of_read {text : List Char} {e : PatternError}
    (failed : Phrase.read text = .error e) : e.index < text.length := by
  have fits : ∀ t ∈ tokens text,
      t.1 < text.length ∧ ∀ e ∈ t.2.error?, t.1 + e.index < text.length :=
    fun t listed => fits_of_mem_tokens listed
  obtain ⟨kept, blamed⟩ := (Reader.blames_start text.length).run fits
  rw [read_eq] at failed
  rcases bind_eq_error.1 failed with early | ⟨r, taken, late⟩
  · exact blamed e early
  · exact (kept r taken).index_lt_of_finish late

theorem Reader.ReadsPiece.ne_nil {r q : Reader} {piece after : List Token}
    (h : r.ReadsPiece (piece ++ after) q after) : piece ≠ [] := by
  rintro rfl
  obtain ⟨piece, split, taken⟩ := h.taken
  obtain rfl : piece = [] := List.append_left_eq_self.1 split.symm
  obtain rfl : r = q := Option.some.inj taken
  obtain ⟨last, some, level⟩ := h.level
  exact absurd (place_lt_of_begin some rfl level) (lt_irrefl r.place)

/-- Reading a text gets on with every token, every piece and every item of a class, and the
cursor stays in the text. -/
structure Progress (text : List Char) : Prop where
  tokens : ∀ before i t rest, tokens text = before ++ (i, t) :: rest →
    ∃ c v, text.drop i = c :: v ∧ Scanned text.length i t c v (cursor text.length rest)
  pieces : ∀ before piece after r q, PatternSampler.tokens text = before ++ (piece ++ after) →
    Reader.ReadsPiece r ((piece ++ after).map Prod.snd) q (after.map Prod.snd) →
      cursor text.length (piece ++ after) < cursor text.length after ∧
        cursor text.length after ≤ text.length
  items : ∀ i item n, scanClassItem (text.drop i) = .ok (item, n) →
    i < i + n ∧ i + n ≤ text.length

theorem progress (text : List Char) : Progress text where
  tokens before i t rest cut := by
    obtain ⟨u, c, v, rfl, rfl, scanned⟩ := exists_scanned cut
    simp only [Nat.zero_add] at scanned ⊢
    exact ⟨c, v, List.drop_left, scanned⟩
  pieces before piece after r q cut reads := by
    rw [List.map_append] at reads
    exact cursor_lt_of_append cut fun none => reads.ne_nil (by rw [none, List.map_nil])
  items i item n scanned := by
    have bounds := bounds_of_scanClassItem scanned
    rw [List.length_drop] at bounds
    omega

namespace Pattern

/-- With its markers and without them a text is read to a tree, or to an error whose index is
that of a character of the text.  The pattern of a GUID has no error that could be blamed on it
instead, and no step of the reading stands still or leaves the text. -/
theorem index_lt_of_error (source : String) :
    ((∃ p, parse source = .ok p) ∨ ∃ e, parse source = .error e ∧ e.index < source.length) ∧
    ((∃ p, parseUnmarked source = .ok p) ∨
      ∃ e, parseUnmarked source = .error e ∧ e.index < source.length) ∧
    Phrase.read guidPattern.toList = .ok .guid ∧ Progress source.toList := by
  have blamed : ∀ e, Phrase.read source.toList = .error e → e.index < source.length :=
    fun e failed => Phrase.index_lt_of_read failed
  refine ⟨?_, ?_, rfl, progress source.toList⟩
  · rw [parse_eq]
    cases read : Phrase.read source.toList with
    | ok p => exact .inl ⟨_, rfl⟩
    | error e => exact .inr ⟨e, rfl, blamed e read⟩
  · rw [parseUnmarked_eq]
    cases read : Phrase.read source.toList with
    | ok p => exact .inl ⟨_, rfl⟩
    | error e => exact .inr ⟨e, rfl, blamed e read⟩

end Pattern

end PatternSampler
