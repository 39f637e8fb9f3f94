import PatternSampler.Proofs.IntervalSet.Complement

/-!
# Insertion as a splice

The spans that an inserted one overlaps or touches stand next to each other.  So two searches
find where they begin and where they end, and the insertion puts one span in their place.  With
words for numbers the neighbour of the largest one is that word itself, which changes nothing.
-/

namespace PatternSampler

def maxWord : Nat := 0xFFFFFFFF

def nextWord (n : Nat) : Nat := min (n + 1) maxWord

namespace IntervalSet

def partitionPoint (p : Span → Bool) (spans : List Span) : Nat := (spans.takeWhile p).length

variable {p : Span → Bool} {s t : Span} {spans : List Span}

theorem partitionPoint_append {front back : List Span} (held : ∀ t ∈ front, p t = true)
    (missed : ∀ t ∈ back, p t = false) : partitionPoint p (front ++ back) = front.length := by
  rw [partitionPoint, List.takeWhile_append_of_pos held, List.length_append]
  cases back with
  | nil => simp
  | cons t back => simp [missed t (by simp)]

/-- A property that gets lost on the way to the right holds up to one place and from there on
no more. -/
theorem exists_partition (apart : spans.Pairwise Span.Before)
    (lost : ∀ t u : Span, t.Before u → p u = true → p t = true) :
    ∃ front back, spans = front ++ back ∧ (∀ t ∈ front, p t = true) ∧
      ∀ t ∈ back, p t = false := by
  induction spans with
  | nil => exact ⟨[], [], by simp⟩
  | cons t rest ih =>
      obtain ⟨before, apart⟩ := List.pairwise_cons.1 apart
      obtain ⟨front, back, rfl, held, missed⟩ := ih apart
      cases ht : p t with
      | true => exact ⟨t :: front, back, rfl, by simpa [ht] using held, missed⟩
      | false =>
          have none : ∀ u ∈ t :: (front ++ back), p u = false := by
            intro u hu
            rcases List.mem_cons.1 hu with rfl | later
            · exact ht
            · refine Bool.eq_false_iff.2 fun hu => ?_
              simp [lost t u (before u later) hu] at ht
          exact ⟨[], t :: (front ++ back), rfl, by simp, none⟩

/-- `t` ends in front of `s` and does not touch it. -/
def inFront (s t : Span) : Bool := decide (nextWord t.hi < s.lo)

/-- `t` does not begin behind `s`, or it touches it. -/
def reaches (s t : Span) : Bool := decide (t.lo ≤ nextWord s.hi)

theorem inFront_iff (word : s.hi ≤ maxWord) : inFront s t = true ↔ t.hi + 1 < s.lo := by
  have := s.ordered
  rw [inFront, decide_eq_true_iff, nextWord]
  omega

theorem reaches_iff (word : t.hi ≤ maxWord) : reaches s t = true ↔ t.lo ≤ s.hi + 1 := by
  have := t.ordered
  rw [reaches, decide_eq_true_iff, nextWord]
  omega

theorem inFront_of_before (word : s.hi ≤ maxWord) {t u : Span} (before : t.Before u)
    (h : inFront s u = true) : inFront s t = true := by
  have := u.ordered
  rw [inFront_iff word] at *
  simp only [Span.Before] at before
  omega

theorem reaches_of_before {t u : Span} (before : t.Before u) (h : reaches s u = true) :
    reaches s t = true := by
  have := t.ordered
  rw [reaches, decide_eq_true_iff] at *
  simp only [Span.Before] at before
  omega

theorem min_lo_le_max_hi (s first last : Span) : min first.lo s.lo ≤ max last.hi s.hi := by
  have := s.ordered
  omega

/-- The span that covers `s` and a stretch of spans in order. -/
def united (s : Span) : List Span → Span
  | [] => s
  | first :: rest =>
      { lo := min first.lo s.lo
        hi := max ((first :: rest).getLast (List.cons_ne_nil first rest)).hi s.hi
        ordered := min_lo_le_max_hi s first _ }

/-- Puts one span in the place of those that it overlaps or touches. -/
def splice (s : Span) (spans : List Span) : List Span :=
  let start := partitionPoint (inFront s) spans
  let stop := max start (partitionPoint (reaches s) spans)
  spans.take start ++ united s ((spans.take stop).drop start) :: spans.drop stop

theorem united_hull {t : Span} {rest : List Span} (apart : (t :: rest).Pairwise Span.Before) :
    united (s.hull t) rest = united s (t :: rest) := by
  cases rest with
  | nil => simp [united, Span.hull, Nat.min_comm, Nat.max_comm]
  | cons u rest =>
      have last := (List.pairwise_cons.1 apart).1 _ (List.getLast_mem (by simp : u :: rest ≠ []))
      have first := (List.pairwise_cons.1 apart).1 u (by simp)
      have ht := t.ordered
      have hlast := ((u :: rest).getLast (by simp)).ordered
      simp only [Span.Before] at first last
      simp only [united, Span.hull, List.getLast_cons_cons, Span.mk.injEq]
      omega

theorem insertInto_below {below : List Span} (h : ∀ t ∈ below, t.hi + 1 < s.lo)
    (rest : List Span) : insertInto s (below ++ rest) = below ++ insertInto s rest := by
  induction below with
  | nil => rfl
  | cons t below ih =>
      simp only [List.forall_mem_cons] at h
      have := s.ordered
      have := t.ordered
      have behind : ¬s.hi + 1 < t.lo := by omega
      rw [List.cons_append, insertInto, if_neg behind, if_pos h.1, ih h.2, List.cons_append]

theorem insertInto_above {above : List Span} (h : ∀ t ∈ above, s.hi + 1 < t.lo) :
    insertInto s above = s :: above := by
  cases above with
  | nil => rfl
  | cons t above => rw [insertInto, if_pos (h t (by simp))]

theorem insertInto_touched {touched above : List Span}
    (apart : (touched ++ above).Pairwise Span.Before)
    (touches : ∀ t ∈ touched, s.lo ≤ t.hi + 1 ∧ t.lo ≤ s.hi + 1)
    (beyond : ∀ t ∈ above, s.hi + 1 < t.lo) :
    insertInto s (touched ++ above) = united s touched :: above := by
  induction touched generalizing s with
  | nil => exact insertInto_above beyond
  | cons t rest ih =>
      rw [List.cons_append, List.pairwise_cons] at apart
      simp only [List.forall_mem_cons] at touches
      have notBehind : ¬s.hi + 1 < t.lo := by omega
      have notInFront : ¬t.hi + 1 < s.lo := by omega
      have hull : (s.hull t).lo = min s.lo t.lo ∧ (s.hull t).hi = max s.hi t.hi := ⟨rfl, rfl⟩
      rw [List.cons_append, insertInto, if_neg notBehind, if_neg notInFront, ih apart.2]
      · rw [united_hull]
        exact (List.pairwise_cons.2 apart).sublist (List.sublist_append_left (t :: rest) above)
      · intro u hu
        have := touches.2 u hu
        omega
      · intro u hu
        have before : t.hi + 1 < u.lo := apart.1 u (by simp [hu])
        have := beyond u hu
        omega

theorem splice_append {below touched above : List Span}
    (start : partitionPoint (inFront s) (below ++ (touched ++ above)) = below.length)
    (stop : partitionPoint (reaches s) (below ++ (touched ++ above)) =
      (below ++ touched).length) :
    splice s (below ++ (touched ++ above)) = below ++ united s touched :: above := by
  have later : max below.length (below ++ touched).length = (below ++ touched).length := by simp
  rw [splice, start, stop, later, List.take_left, ← List.append_assoc, List.take_left,
    List.drop_left, List.drop_left]

/-- On spans of words, inserting is the splice between the two places that are searched for. -/
theorem insertInto_eq_splice (apart : spans.Pairwise Span.Before)
    (words : ∀ t ∈ spans, t.hi ≤ maxWord) (word : s.hi ≤ maxWord) :
    insertInto s spans = splice s spans := by
  have hs := s.ordered
  obtain ⟨below, rest, rfl, front, behind⟩ :=
    exists_partition (p := inFront s) apart fun _ _ => inFront_of_before word
  have restApart := (List.pairwise_append.1 apart).2.1
  obtain ⟨touched, above, rfl, near, beyond⟩ :=
    exists_partition (p := reaches s) restApart fun _ _ => reaches_of_before
  have start : partitionPoint (inFront s) (below ++ (touched ++ above)) = below.length :=
    partitionPoint_append front behind
  have stop : partitionPoint (reaches s) (below ++ (touched ++ above)) =
      (below ++ touched).length := by
    rw [← List.append_assoc]
    refine partitionPoint_append (fun t ht => ?_) beyond
    rcases List.mem_append.1 ht with early | ht
    · have := t.ordered
      have := (inFront_iff word).1 (front t early)
      rw [reaches_iff (words t (by simp [early]))]
      omega
    · exact near t ht
  rw [splice_append start stop, insertInto_below, insertInto_touched restApart]
  · intro t ht
    have touching := (reaches_iff (words t (by simp [ht]))).1 (near t ht)
    have notFront : ¬t.hi + 1 < s.lo := by
      simpa [← inFront_iff word] using behind t (by simp [ht])
    omega
  · intro t ht
    have notNear := beyond t ht
    rw [← Bool.not_eq_true, reaches_iff (words t (by simp [ht]))] at notNear
    omega
  · intro t ht
    exact (inFront_iff word).1 (front t ht)

end IntervalSet

end PatternSampler
