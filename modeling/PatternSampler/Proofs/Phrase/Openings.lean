import PatternSampler.Proofs.Phrase.Stamps

/-!
# Opening parentheses

The nodes of a tree are numbered as they are completed, and its capturing groups as they are
opened.  A walk meets both events in the order of the text, so the number of a group and the
first of its nodes are those at its own opening parenthesis.
-/

namespace PatternSampler

/-- The name that a token opens a capturing group with, which may be none. -/
def Token.opened? : Token → Option (Option String)
  | opening (.capturing name) => some name
  | _ => none

theorem Token.of_opened? {t : Token} {name : Option String} (h : t.opened? = some name) :
    t = .opening (.capturing name) := by
  unfold opened? at h
  split at h
  · cases h
    rfl
  · cases h

/-- Each capturing group that is opened, and `none` for each node that is completed. -/
def Tally.events : Tally (Option (Nat × Option String)) where
  node _ := none
  rep _ _ _ := none
  opening capture := capture.toList.map some

theorem Tally.counts_events : events.Counts Option.isNone where
  node _ := rfl
  rep _ _ _ := rfl
  opening capture := by cases capture <;> rfl

namespace Node

def opened? : Node → Option (Nat × Option String)
  | capture _ index name _ => some (index, name)
  | _ => none

theorem events_eq (n : Node) : n.tally .events =
    n.opened?.toList.map some ++ n.children.flatMap (tally .events) ++ [none] := by
  cases n <;> simp [tally, tallyEach_eq, Tally.events, opened?, children]

theorem events_bare (n : Node) : n.bare.tally .events = n.tally .events := by
  induction n using inductOwned with
  | node n ih =>
      have own : n.bare.opened? = n.opened? := by cases n <;> rfl
      rw [events_eq, events_eq n, own, children_bare, List.flatMap_map]
      congr 2
      exact List.flatMap_congr ih

theorem countP_opened? (n : Node) : (n.opened?.toList.map some).countP Option.isNone = 0 := by
  cases n <;> rfl

theorem countP_isNone_events (n : Node) :
    (n.tally .events).countP Option.isNone = n.nodes.length := by
  induction n using inductOwned with
  | node n ih =>
      rw [events_eq, nodes_eq, List.countP_append, List.countP_append, countP_opened?,
        countP_flatMap_eq_length ih, List.length_append, Nat.zero_add]
      rfl

theorem countP_isSome_events (n : Node) :
    (n.tally .events).countP Option.isSome = n.indexes.length := by
  induction n using inductOwned with
  | node n ih =>
      have own : (n.opened?.toList.map some).countP Option.isSome =
          (n.group?.map (·.index)).toList.length := by
        cases n <;> rfl
      rw [events_eq, indexes_eq, List.countP_append, List.countP_append, own,
        countP_flatMap_eq_length ih, List.length_append, Nat.add_comm (Option.toList _).length]
      rfl

theorem exists_event {m n : Node} (below : m ∈ n.nodes) {opening : Nat × Option String}
    (opened : m.opened? = some opening) : ∃ before after first last,
      n.nodes = before ++ m.nodes ++ after ∧ n.tally .events = first ++ some opening :: last ∧
        first.countP Option.isNone = before.length := by
  induction n using inductOwned with
  | node n ih =>
      rcases mem_nodes.1 below with rfl | ⟨c, child, below⟩
      · exact ⟨[], [], [], _, by simp, by rw [events_eq, opened]; rfl, rfl⟩
      · obtain ⟨before, after, first, last, hnodes, hevents, count⟩ := ih c child below
        obtain ⟨left, right, split⟩ := List.append_of_mem child
        refine ⟨left.flatMap nodes ++ before, after ++ right.flatMap nodes ++ [n],
          n.opened?.toList.map some ++ left.flatMap (tally .events) ++ first,
          last ++ right.flatMap (tally .events) ++ [none], ?_, ?_, ?_⟩
        · rw [nodes_eq n, split]
          simp [hnodes]
        · rw [events_eq n, split]
          simp [hevents]
        · rw [List.countP_append, List.countP_append, countP_opened?, count, List.length_append,
            countP_flatMap_eq_length fun d _ => d.countP_isNone_events, Nat.zero_add]

end Node

theorem Phrase.events_number (p : Phrase) (marked : Bool) (s : Numbering) :
    (p.number marked s).1.tally .events = p.tally .events marked :=
  p.tally_number _ (fun _ _ _ => rfl) marked s

namespace Reader

variable {r s : Reader} {t : Token} {ts : List Token}

theorem captures_step {i : Nat} (h : r.step i t = .ok s) :
    s.captures = r.captures + t.opened?.toList.length := by
  cases step_eq_ok.1 h with
  | literal | marker | closing | bar | quantifier => rfl
  | atom isAtom => cases isAtom <;> rfl
  | opening kind => cases kind <;> rfl

theorem captures_advance? (taken : r.advance? ts = some s) :
    s.captures = r.captures + (ts.filterMap Token.opened?).length := by
  induction ts generalizing r with
  | nil =>
      cases taken
      rfl
  | cons t ts ih =>
      obtain ⟨next, step, others⟩ := advance?_cons_eq_some.1 taken
      rw [ih others, captures_step step, Nat.add_assoc]
      cases opened : t.opened? <;> simp [opened, Nat.add_comm]

theorem notes_events (r : Reader) (t : Token) : ∃ completed, (∀ event ∈ completed, event = none) ∧
    r.notes .events t = (t.opened?.map (r.captures + 1, ·)).toList.map some ++ completed := by
  cases t with
  | literal c =>
      rw [notes]
      split
      · exact ⟨[], by simp, rfl⟩
      · exact ⟨[none], by simp, rfl⟩
  | marker | invalid => exact ⟨[], by simp, rfl⟩
  | set | anchor | reference => exact ⟨[none], by simp, rfl⟩
  | guid =>
      have plain (outer : Bool) : ∀ event ∈ Phrase.guid.tally .events outer, event = none := by
        cases outer <;> decide
      exact ⟨_, plain _, rfl⟩
  | opening kind => cases kind <;> exact ⟨[], by simp, rfl⟩
  | closing =>
      refine ⟨_, fun event noted => ?_, rfl⟩
      rcases List.mem_append.1 noted with joint | own
      · exact Level.of_mem_joints joint
      · exact List.mem_singleton.1 own
  | bar => exact ⟨_, fun event noted => Tally.of_mem_jointOf _ noted, rfl⟩
  | quantifier bounds =>
      cases bounds with
      | error e => exact ⟨[], by simp, rfl⟩
      | ok q =>
          rw [notes]
          split
          · exact ⟨[none, none], by simp, rfl⟩
          · exact ⟨[none], by simp, rfl⟩

theorem opened_of_notes {opening : Nat × Option String} {j : Nat}
    (noted : (r.notes .events t)[j]? = some (some opening)) :
    j = 0 ∧ ∃ name, t = .opening (.capturing name) ∧ opening = (r.captures + 1, name) := by
  obtain ⟨completed, plain, eq⟩ := r.notes_events t
  rw [eq] at noted
  cases opened : t.opened? with
  | none =>
      simp only [opened, Option.map_none, Option.toList_none, List.map_nil, List.nil_append]
        at noted
      cases plain _ (List.mem_of_getElem? noted)
  | some name =>
      simp only [opened, Option.map_some, Option.toList_some, List.map_singleton] at noted
      cases j with
      | zero =>
          cases noted
          exact ⟨rfl, name, Token.of_opened? opened, rfl⟩
      | succ j => cases plain _ (List.mem_of_getElem? noted)

theorem countP_isSome_eq_zero {events : List (Option (Nat × Option String))}
    (plain : ∀ event ∈ events, event = none) : events.countP Option.isSome = 0 :=
  List.countP_eq_zero.2 fun event listed => by simp [plain event listed]

theorem countP_isSome_notes (r : Reader) (t : Token) :
    (r.notes .events t).countP Option.isSome = t.opened?.toList.length := by
  obtain ⟨completed, plain, eq⟩ := r.notes_events t
  rw [eq, List.countP_append, countP_isSome_eq_zero plain]
  cases t.opened? <;> rfl

theorem countP_isSome_advance? (taken : r.advance? ts = some s) :
    (s.tally .events).countP Option.isSome =
      (r.tally .events).countP Option.isSome + (ts.filterMap Token.opened?).length := by
  induction ts generalizing r with
  | nil =>
      cases taken
      rfl
  | cons t ts ih =>
      obtain ⟨next, step, others⟩ := advance?_cons_eq_some.1 taken
      rw [ih others, tally_step _ step, List.countP_append, countP_isSome_notes, Nat.add_assoc]
      cases opened : t.opened? <;> simp [opened, Nat.add_comm]

/-- The capturing group with a number is opened by a token of the text, when as many nodes
have been completed as come before those of the group. -/
def Opens (ts : List Token) (index : Nat) (name : Option String) (first : Nat) : Prop :=
  ∃ before rest r, ts = before ++ .opening (.capturing name) :: rest ∧
    start.advance? before = some r ∧ (before.filterMap Token.opened?).length + 1 = index ∧
    r.completed = first

theorem opens_of_noted (taken : start.advance? ts = some r) {index : Nat} {name : Option String}
    {first last : List (Option (Nat × Option String))}
    (split : r.tally .events = first ++ some (index, name) :: last) :
    Opens ts index name (first.countP Option.isNone) := by
  have noted : (r.tally .events)[first.length]? = some (some (index, name)) := by
    simp [split]
  obtain ⟨before, t, rest, u, s, j, rfl, read, step, kept, place, noted⟩ :=
    exists_step_of_noted _ taken noted
  obtain ⟨rfl, name, rfl, same⟩ := opened_of_notes noted
  cases same
  refine ⟨before, rest, u, rfl, read, ?_, ?_⟩
  · rw [captures_advance? read]
    simp [start]
  · have grown : u.tally .events <+: s.tally .events := by
      rw [tally_step _ step]
      exact List.prefix_append _ _
    have earlier := grown.trans kept
    rw [split, List.prefix_iff_eq_take, ← Nat.add_zero (List.length _), ← place, List.take_left]
      at earlier
    rw [← countP_tally Tally.counts_events, earlier]

theorem exists_completed (groups : r.groups = []) : ∃ completed,
    (∀ event ∈ completed, event = none) ∧
      r.level.toPhrase.tally .events false = r.tally .events ++ completed :=
  ⟨_, fun _ noted => Level.of_mem_joints noted, tally_finished _ groups⟩

end Reader

namespace Phrase

variable {text : List Char} {p : Phrase}

theorem countP_isSome_of_read (read : Phrase.read text = .ok p) :
    (p.tally .events false).countP Option.isSome =
      ((kinds text).filterMap Token.opened?).length := by
  obtain ⟨r, taken, -, groups, rfl⟩ := read_eq_ok.1 read
  obtain ⟨completed, plain, eq⟩ := Reader.exists_completed groups
  rw [eq, List.countP_append, Reader.countP_isSome_eq_zero plain,
    Reader.countP_isSome_advance? taken]
  exact Nat.zero_add _

theorem opens_of_read (read : Phrase.read text = .ok p) {index : Nat} {name : Option String}
    {first last : List (Option (Nat × Option String))}
    (split : p.tally .events false = first ++ some (index, name) :: last) :
    Reader.Opens (kinds text) index name (first.countP Option.isNone) := by
  obtain ⟨r, taken, -, groups, rfl⟩ := read_eq_ok.1 read
  obtain ⟨completed, plain, eq⟩ := Reader.exists_completed groups
  rw [eq, List.append_eq_append_iff] at split
  rcases split with ⟨between, -, rest⟩ | ⟨between, front, rest⟩
  · cases plain _ (rest ▸ List.mem_append_right between List.mem_cons_self)
  · cases between with
    | nil => cases plain _ (rest ▸ List.mem_cons_self)
    | cons event between =>
        cases rest
        exact Reader.opens_of_noted taken front

end Phrase

end PatternSampler
