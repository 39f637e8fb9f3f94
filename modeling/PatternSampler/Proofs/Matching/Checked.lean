import PatternSampler.Proofs.Matching.Exact

/-!
# Checked matching

Matching looks at stretches of its text and at slots for captures by number.  Checked
matching does the same but fails at the first number that is out of bounds.  From a state
inside the text it never does, and it lists the same states.
-/

namespace PatternSampler

/-- The text between two positions, which must be in order and inside the text. -/
def stretch? (text : Array Char) (start stop : Nat) : Option (List Char) :=
  if start ≤ stop ∧ stop ≤ text.size then some (stretch text start stop) else none

def spells? (text : Array Char) (position : Nat) (chars : List Char) : Option Bool :=
  if position ≤ text.size then some (spells text position chars) else none

def MatchState.record? (s : MatchState) (index start : Nat) : Option MatchState :=
  if index < s.captures.length then some (s.record index start) else none

def repeatStates? (step? : MatchState → Option (List MatchState)) (q : Quantifier) :
    (rounds count : Nat) → (accepted : MatchStates) → (frontier : List MatchState) →
      Option (List MatchState)
  | 0, _, accepted, _ => some accepted.toList
  | rounds + 1, count, accepted, frontier =>
      let past := decide (q.min ≤ count)
      let frontier := if past then frontier.filter (!accepted.contains ·) else frontier
      let accepted := if past then accepted.insertMany frontier else accepted
      if frontier.isEmpty || q.exhausted count then some accepted.toList
      else do
        let next ← frontier.mapM step?
        repeatStates? step? q rounds (count + 1) accepted (distinct next.flatten)

def copyStates? (text : Array Char) (q : Quantifier) (captures : List (Option (Nat × Nat)))
    (unit : List Char) : (rounds count position : Nat) → Option (List MatchState)
  | 0, _, _ => some []
  | rounds + 1, count, position => do
      let here := if q.min ≤ count then [⟨position, captures⟩] else []
      if q.exhausted count then some here
      else if ← spells? text position unit then
        let others ← copyStates? text q captures unit rounds (count + 1) (position + unit.length)
        some (here ++ others)
      else some here

/-- The states after copies of what the first repetition has spelled. -/
def copiesOfFirst? (text : Array Char) (q : Quantifier) (s first : MatchState) :
    Option (List MatchState) := do
  match ← stretch? text s.position first.position with
  | [] => some [first]
  | unit => copyStates? text q first.captures unit (text.size + 1) 1 first.position

def equalStates? (text : Array Char) (step? : MatchState → Option (List MatchState))
    (q : Quantifier) (s : MatchState) : Option (List MatchState) :=
  let unrepeated := if q.min = 0 then [s] else []
  if q.exhausted 0 then some unrepeated
  else do
    let firsts ← step? s
    let repeated ← firsts.mapM (copiesOfFirst? text q s)
    some (unrepeated ++ repeated.flatten)

namespace Node

mutual

def states? (text : Array Char) : Node → MatchState → Option (List MatchState)
  | .text tag chars, s => some (states text (.text tag chars) s)
  | set tag members, s => some (states text (set tag members) s)
  | rep _ quantifier body, s =>
      if quantifier.same then
        (equalStates? text (states? text body) quantifier s).map distinct
      else
        let rounds := quantifier.min + MatchState.total text.size s.captures.length + 1
        repeatStates? (states? text body) quantifier rounds 0 ∅ [s]
  | seq _ children, s => statesAfter? text children [s]
  | alt _ children, s => (statesAmong? text children s).map distinct
  | group _ body, s => states? text body s
  | capture _ index _ body, s => do
      let ends ← states? text body s
      let captured ← ends.mapM (·.record? index s.position)
      some (distinct captured)
  | backref _ _ index _, s =>
      match s.captures[index]? with
      | none => none
      | some none => some [s]
      | some (some (start, stop)) => do
          let unit ← stretch? text start stop
          if ← spells? text s.position unit then some [s.advance unit.length] else some []

def statesAfter? (text : Array Char) : List Node → List MatchState → Option (List MatchState)
  | [], ss => some ss
  | n :: rest, ss => do
      let next ← ss.mapM (states? text n)
      statesAfter? text rest (distinct next.flatten)

def statesAmong? (text : Array Char) : List Node → MatchState → Option (List MatchState)
  | [], _ => some []
  | n :: rest, s => do
      let first ← states? text n s
      let others ← statesAmong? text rest s
      some (first ++ others)

end

end Node

variable {text : List Char} {slots : Nat} {s : MatchState}

theorem mapM_eq_some {α β : Type} {f? : α → Option β} {f : α → β} {xs : List α}
    (each : ∀ x ∈ xs, f? x = some (f x)) : xs.mapM f? = some (xs.map f) := by
  induction xs with
  | nil => rfl
  | cons x xs ih =>
      obtain ⟨hx, hxs⟩ := List.forall_mem_cons.1 each
      simp [List.mapM_cons, hx, ih hxs]

theorem stretch?_eq {start stop : Nat} (ordered : start ≤ stop) (inside : stop ≤ text.length) :
    stretch? text.toArray start stop = some (stretch text.toArray start stop) :=
  if_pos ⟨ordered, inside⟩

theorem spells?_eq {position : Nat} (inside : position ≤ text.length) (chars : List Char) :
    spells? text.toArray position chars = some (spells text.toArray position chars) :=
  if_pos inside

section

variable {step? : MatchState → Option (List MatchState)} {step : MatchState → List MatchState}
  (agree : ∀ s, s.Within text slots → step? s = some (step s))
  (move : ∀ s t, s.Within text slots → t ∈ step s → s.Moves text slots t)
include agree move

theorem repeatStates?_eq (q : Quantifier) (rounds count : Nat) (accepted : MatchStates)
    {frontier : List MatchState} (within : ∀ s ∈ frontier, s.Within text slots) :
    repeatStates? step? q rounds count accepted frontier =
      some (repeatStates step q rounds count accepted frontier) := by
  induction rounds generalizing count accepted frontier with
  | zero => rfl
  | succ rounds ih =>
      have kept : ∀ s ∈ fresh q count accepted frontier, s.Within text slots :=
        fun s hs => within s (mem_fresh.1 hs).1
      have unfolded : repeatStates? step? q (rounds + 1) count accepted frontier =
          if (fresh q count accepted frontier).isEmpty || q.exhausted count then
            some (extended q count accepted frontier).toList
          else ((fresh q count accepted frontier).mapM step?).bind fun next =>
            repeatStates? step? q rounds (count + 1) (extended q count accepted frontier)
              (distinct next.flatten) := by
        simp [repeatStates?, fresh, extended]
      rw [unfolded, repeatStates_succ]
      split
      · rfl
      · rw [mapM_eq_some fun s hs => agree s (kept s hs)]
        apply ih
        intro t ht
        obtain ⟨u, hu, hut⟩ := List.mem_flatMap.1 (mem_distinct.1 ht)
        exact (move u t (kept u hu) hut).within

end

section

variable (q : Quantifier)

theorem copyStates?_eq (captures : List (Option (Nat × Nat))) (unit : List Char)
    (rounds count : Nat) {position : Nat} (inside : position ≤ text.length) :
    copyStates? text.toArray q captures unit rounds count position =
      some (copyStates text.toArray q captures unit rounds count position) := by
  induction rounds generalizing count position with
  | zero => rfl
  | succ rounds ih =>
      rw [copyStates?, copyStates, spells?_eq inside]
      cases q.exhausted count with
      | true => rfl
      | false =>
          cases stands : spells text.toArray position unit with
          | false => rfl
          | true =>
              -- a copy that stands in the text ends where the next one may begin
              have fits := (spells_iff.1 stands).length_le
              rw [List.length_drop] at fits
              have next : position + unit.length ≤ text.length := by omega
              simp [ih (count + 1) next]

theorem copiesOfFirst?_eq {first : MatchState} (moved : s.Moves text slots first) :
    copiesOfFirst? text.toArray q s first =
      some (match stretch text.toArray s.position first.position with
        | [] => [first]
        | unit => copyStates text.toArray q first.captures unit (text.toArray.size + 1) 1
            first.position) := by
  rw [copiesOfFirst?, stretch?_eq moved.forwards moved.within.position]
  simp only [Option.bind_eq_bind, Option.bind_some]
  split
  · rfl
  · exact copyStates?_eq q _ _ _ _ moved.within.position

theorem equalStates?_eq {step? : MatchState → Option (List MatchState)}
    {step : MatchState → List MatchState} (agree : step? s = some (step s))
    (moves : ∀ t ∈ step s, s.Moves text slots t) :
    equalStates? text.toArray step? q s = some (equalStates text.toArray step q s) := by
  rw [equalStates?, equalStates]
  split
  · rfl
  · simp only [agree, Option.bind_eq_bind, Option.bind_some]
    rw [mapM_eq_some fun t ht => copiesOfFirst?_eq q (moves t ht)]
    rfl

end

namespace Node

theorem statesAfter?_eq {ns : List Node}
    (agree : ∀ n ∈ ns, ∀ s, s.Within text slots →
      n.states? text.toArray s = some (n.states text.toArray s))
    (move : ∀ n ∈ ns, ∀ s t, s.Within text slots → t ∈ n.states text.toArray s →
      s.Moves text slots t)
    {ss : List MatchState} (within : ∀ s ∈ ss, s.Within text slots) :
    statesAfter? text.toArray ns ss = some (statesAfter text.toArray ns ss) := by
  induction ns generalizing ss with
  | nil => rfl
  | cons n rest ih =>
      obtain ⟨hn, hrest⟩ := List.forall_mem_cons.1 agree
      obtain ⟨moves, others⟩ := List.forall_mem_cons.1 move
      rw [statesAfter?, mapM_eq_some fun s hs => hn s (within s hs)]
      apply ih hrest others
      intro t ht
      obtain ⟨u, hu, hut⟩ := List.mem_flatMap.1 (mem_distinct.1 ht)
      exact (moves u t (within u hu) hut).within

theorem statesAmong?_eq {ns : List Node}
    (agree : ∀ n ∈ ns, n.states? text.toArray s = some (n.states text.toArray s)) :
    statesAmong? text.toArray ns s = some (statesAmong text.toArray ns s) := by
  induction ns with
  | nil => rfl
  | cons n rest ih =>
      obtain ⟨hn, hrest⟩ := List.forall_mem_cons.1 agree
      simp [statesAmong?, statesAmong, hn, ih hrest]

theorem states?_eq {n : Node} (fits : ∀ m ∈ n.nodes, m.Fits slots) (hs : s.Within text slots) :
    n.states? text.toArray s = some (n.states text.toArray s) := by
  have moves {n : Node} (fits : ∀ m ∈ n.nodes, m.Fits slots) (s t : MatchState)
      (hs : s.Within text slots) (ht : t ∈ n.states text.toArray s) : s.Moves text slots t :=
    ((mem_states_of_fits fits hs).1 ht).moves hs
  induction n generalizing s with
  | text | set => rfl
  | rep tag quantifier body ih =>
      obtain ⟨-, below⟩ := forall_mem_nodes.1 fits
      have inner := below body (List.mem_singleton_self body)
      have agree (s : MatchState) (hs : s.Within text slots) := ih inner hs
      rw [states?, states]
      cases quantifier.same with
      | true =>
          rw [if_pos rfl, if_pos rfl,
            equalStates?_eq quantifier (agree s hs) fun t ht => moves inner s t hs ht]
          rfl
      | false =>
          rw [if_neg Bool.false_ne_true, if_neg Bool.false_ne_true]
          exact repeatStates?_eq agree (moves inner) quantifier _ 0 ∅ (by simpa using hs)
  | seq tag children ih =>
      obtain ⟨-, below⟩ := forall_mem_nodes.1 fits
      exact statesAfter?_eq (fun n hn s hs => ih n hn (below n hn) hs)
        (fun n hn => moves (below n hn)) (by simpa using hs)
  | alt tag children ih =>
      obtain ⟨-, below⟩ := forall_mem_nodes.1 fits
      rw [states?, states, statesAmong?_eq fun n hn => ih n hn (below n hn) hs]
      rfl
  | group tag body ih =>
      obtain ⟨-, below⟩ := forall_mem_nodes.1 fits
      exact ih (below body (List.mem_singleton_self body)) hs
  | capture tag index name body ih =>
      obtain ⟨⟨-, slot⟩, below⟩ := forall_mem_nodes.1 fits
      have inner := below body (List.mem_singleton_self body)
      have recorded (t : MatchState) (ht : t ∈ body.states text.toArray s) :
          t.record? index s.position = some (t.record index s.position) :=
        if_pos ((moves inner s t hs ht).within.slots ▸ slot index rfl)
      rw [states?, states, ih inner hs]
      simp [mapM_eq_some recorded]
  | backref tag target index body _ =>
      obtain ⟨⟨-, slot⟩, -⟩ := forall_mem_nodes.1 fits
      have inside : index < s.captures.length := hs.slots ▸ slot index rfl
      rw [states?, states, MatchState.captured?, List.getElem?_eq_getElem inside,
        Option.join_some]
      cases captured : s.captures[index] with
      | none => rfl
      | some span =>
          obtain ⟨start, stop⟩ := span
          obtain ⟨ordered, fits⟩ := hs.spans start stop (captured ▸ List.getElem_mem inside)
          simp only [stretch?_eq ordered fits, spells?_eq hs.position, Option.bind_eq_bind,
            Option.bind_some]
          split <;> rfl

end Node

end PatternSampler
