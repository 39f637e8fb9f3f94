import PatternSampler.Proofs.Pattern.Entries
import PatternSampler.Proofs.Phrase.Marking

/-!
# Adding a marker

A marker that is written in front of a piece, or of a quantifier, leaves the tree as it is.
It marks what the piece completes, or the repetition of the quantifier, and nothing else.
-/

namespace PatternSampler

def insertMarker (text : String) (i : Nat) : String :=
  String.ofList (text.toList.take i ++ '\\' :: 'i' :: text.toList.drop i)

theorem kinds_marker (rest : List Char) : kinds ('\\' :: 'i' :: rest) = .marker :: kinds rest := by
  have cuts : Cuts rest 0 0 ['\\', 'i'] [(0, .marker)] :=
    .token rfl trivial (.skip (.done 2))
  exact cuts.kinds_eq

theorem kinds_insertMarker {text : String} {before rest : List (Nat × Token)} {i : Nat} {t : Token}
    (cut : tokens text.toList = before ++ (i, t) :: rest)
    (sound : ∀ t ∈ before, t.2.Sound) :
    kinds (insertMarker text i).toList =
      before.map Prod.snd ++ .marker :: t :: rest.map Prod.snd := by
  obtain ⟨u, v, split, place, cuts, next⟩ := exists_cuts cut sound
  obtain rfl : i = u.length := by omega
  have inserted : (insertMarker text u.length).toList = u ++ '\\' :: 'i' :: v := by
    rw [insertMarker, String.toList_ofList, split, List.take_left, List.drop_left]
  have apart : Apart ('\\' :: 'i' :: v) := apart_cons (by decide) (by decide)
  have others : kinds v = t :: rest.map Prod.snd := by
    rw [kinds, tokens, map_tokensFrom 0 u.length, next]
    rfl
  rw [inserted, (cuts.replace apart).kinds_eq, kinds_marker, others]

namespace Pattern

def markedAt (stamps : List Stamp) (id : Nat) : Bool := stamps[id]?.any (·.marked)

theorem mem_markedIds {p : Pattern} (hp : p.WellFormed) (id : Nat) :
    id ∈ p.markedIds ↔ markedAt (p.root.nodes.map Node.stamp) id = true := by
  simp only [markedIds, List.mem_map, List.mem_filter, markedAt, List.getElem?_map,
    Option.any_map]
  constructor
  · rintro ⟨n, ⟨owned, marked⟩, rfl⟩
    rw [hp.getElem?_iff.2 ⟨owned, rfl⟩]
    exact marked
  · intro h
    cases found : p.root.nodes[id]? with
    | none => simp [found] at h
    | some n =>
        obtain ⟨owned, same⟩ := hp.getElem?_iff.1 found
        rw [found] at h
        exact ⟨n, ⟨owned, h⟩, same⟩

theorem markedAt_remark (a own x : List Stamp) (id : Nat) :
    markedAt (a ++ own.map Stamp.mark ++ x) id = true ↔
      markedAt (a ++ own ++ x) id = true ∨ (a.length ≤ id ∧ id < a.length + own.length) := by
  simp only [markedAt, List.append_assoc]
  rcases Nat.lt_or_ge id a.length with before | le
  · have outside : ¬(a.length ≤ id ∧ id < a.length + own.length) := by omega
    simp [List.getElem?_append_left before, outside]
  · rw [List.getElem?_append_right le, List.getElem?_append_right le]
    rcases Nat.lt_or_ge (id - a.length) own.length with inside | after
    · have marked : a.length ≤ id ∧ id < a.length + own.length := by omega
      rw [List.getElem?_append_left (by simpa using inside), List.getElem?_map,
        List.getElem?_eq_getElem inside]
      simp [marked, Stamp.mark]
    · have outside : ¬(a.length ≤ id ∧ id < a.length + own.length) := by omega
      rw [List.getElem?_append_right (by simpa using after), List.getElem?_append_right after]
      simp [outside]

/-- `p'` has the nodes of `p`, and those with a new identity are marked as well. -/
structure Remarks (p p' : Pattern) (new : Nat → Prop) : Prop where
  entries : p'.entries = p.entries
  root : p'.root.id = p.root.id
  captureCount : p'.captureCount = p.captureCount
  hasMarker : p'.hasMarker = true
  markedIds : ∀ id, id ∈ p'.markedIds ↔ id ∈ p.markedIds ∨ new id

theorem remarks_of_stamps {p p' : Phrase} (hp : (ofPhrase p).WellFormed)
    (hp' : (ofPhrase p').WellFormed) (same : p'.unmarked = p.unmarked) {a own x : List Stamp}
    (some : own ≠ []) (stamps : p.tally .stamps false = a ++ own ++ x)
    (stamps' : p'.tally .stamps false = a ++ own.map Stamp.mark ++ x) :
    (ofPhrase p).Remarks (ofPhrase p') fun id => a.length ≤ id ∧ id < a.length + own.length := by
  obtain ⟨root, captureCount⟩ := root_ofPhrase_unmarked p
  obtain ⟨root', captureCount'⟩ := root_ofPhrase_unmarked p'
  rw [same] at root' captureCount'
  have bare : (ofPhrase p').root.bare = (ofPhrase p).root.bare := root'.symm.trans root
  refine ⟨?_, ?_, captureCount'.symm.trans captureCount, ?_, fun id => ?_⟩
  · rw [entries, entries, ← Node.entries_bare, bare, Node.entries_bare]
  · rw [← Node.id_bare, bare, Node.id_bare]
  · obtain ⟨s, listed⟩ := List.exists_mem_of_ne_nil own some
    have marked : s.mark ∈ p'.tally .stamps false := by
      rw [stamps']
      exact List.mem_append_left x (List.mem_append_right a (List.mem_map_of_mem listed))
    exact (p'.any_marked_stamps false).symm.trans (List.any_eq_true.2 ⟨s.mark, marked, rfl⟩)
  · have nodes : (ofPhrase p).root.nodes.map Node.stamp = a ++ own ++ x :=
      (p.stamps_number false .start).trans stamps
    have nodes' : (ofPhrase p').root.nodes.map Node.stamp = a ++ own.map Stamp.mark ++ x :=
      (p'.stamps_number false .start).trans stamps'
    rw [mem_markedIds hp, mem_markedIds hp', nodes, nodes']
    exact markedAt_remark a own x id

theorem Remarks.of_iff {p p' : Pattern} {new new' : Nat → Prop} (h : p.Remarks p' new)
    (same : ∀ id, new id ↔ new' id) : p.Remarks p' new' :=
  ⟨h.entries, h.root, h.captureCount, h.hasMarker, fun id => by rw [h.markedIds, same]⟩

theorem parse_eq_ok {text : String} {p : Pattern} : parse text = .ok p ↔
    ∃ f, Reader.start.advance? (kinds text.toList) = some f ∧ f.waiting = .none ∧
      f.groups = [] ∧ ofPhrase f.level.toPhrase = p := by
  rw [parse_eq_ok_iff]
  constructor
  · rintro ⟨phrase, read, rfl⟩
    obtain ⟨f, taken, waiting, groups, rfl⟩ := Phrase.read_eq_ok.1 read
    exact ⟨f, taken, waiting, groups, rfl⟩
  · rintro ⟨f, taken, waiting, groups, rfl⟩
    exact ⟨_, Phrase.read_eq_ok.2 ⟨f, taken, waiting, groups, rfl⟩, rfl⟩

theorem parse_of_agree {source text : String} {f f' : Reader} {a own added : List Stamp}
    (taken : Reader.start.advance? (kinds source.toList) = some f) (waiting : f.waiting = .none)
    (groups : f.groups = []) (taken' : Reader.start.advance? (kinds text.toList) = some f')
    (agree : Reader.Agree f f' []) (some : own ≠ []) (stamps : f.tally .stamps = a ++ own ++ added)
    (stamps' : f'.tally .stamps = a ++ own.map Stamp.mark ++ added) :
    ∃ p', parse text = .ok p' ∧ (ofPhrase f.level.toPhrase).Remarks p'
      fun id => a.length ≤ id ∧ id < a.length + own.length := by
  have groups' : f'.groups = [] := by
    have length := agree.twin.length_groups
    rw [groups] at length
    exact List.eq_nil_of_length_eq_zero length
  have parsed : parse source = .ok (ofPhrase f.level.toPhrase) :=
    parse_eq_ok.2 ⟨f, taken, waiting, groups, rfl⟩
  have parsed' : parse text = .ok (ofPhrase f'.level.toPhrase) :=
    parse_eq_ok.2 ⟨f', taken', agree.twin.waiting.trans waiting, groups', rfl⟩
  have whole : f.level.toPhrase.tally .stamps false =
      a ++ own ++ (added ++ f.level.joints .stamps false) := by
    rw [Reader.tally_finished .stamps groups, stamps, List.append_assoc]
  have whole' : f'.level.toPhrase.tally .stamps false =
      a ++ own.map Stamp.mark ++ (added ++ f.level.joints .stamps false) := by
    rw [Reader.tally_finished .stamps groups', stamps', agree.twin.joints_eq, List.append_assoc]
  exact ⟨_, parsed', remarks_of_stamps (wellFormed_parse parsed) (wellFormed_parse parsed')
    (agree.twin.level.toPhrase Phrase.likeness_unmarked) some whole whole'⟩

theorem exists_rep {f : Reader} (wellFormed : (ofPhrase f.level.toPhrase).WellFormed)
    (groups : f.groups = []) {a added : List Stamp} {own : Stamp} {quantifier : Quantifier}
    (stamps : f.tally .stamps = a ++ [own] ++ added) (repeats : own.quantifier? = some quantifier) :
    ∃ tag body, Node.rep tag quantifier body ∈ (ofPhrase f.level.toPhrase).root.nodes ∧
      tag.id = a.length := by
  have nodes : (ofPhrase f.level.toPhrase).root.nodes.map Node.stamp =
      f.tally .stamps ++ f.level.joints .stamps false :=
    (f.level.toPhrase.stamps_number false .start).trans (Reader.tally_finished .stamps groups)
  have listed := congrArg (·[a.length]?) nodes
  simp only [stamps, List.append_assoc, List.getElem?_map,
    List.getElem?_append_right (Nat.le_refl a.length), Nat.sub_self] at listed
  cases found : (ofPhrase f.level.toPhrase).root.nodes[a.length]? with
  | none => simp [found] at listed
  | some n =>
      obtain ⟨owned, place⟩ := wellFormed.getElem?_iff.1 found
      have own_eq : n.stamp = own := by simpa [found] using listed
      rw [← own_eq] at repeats
      cases n with
      | rep tag q body =>
          cases repeats
          exact ⟨tag, body, owned, place⟩
      | _ => cases repeats

theorem exists_reader {source : String} {f : Reader} {before rest : List (Nat × Token)} {i : Nat}
    {t : Token} (taken : Reader.start.advance? (kinds source.toList) = some f)
    (cut : tokens source.toList = before ++ (i, t) :: rest) :
    ∃ r, Reader.start.advance? (before.map Prod.snd) = some r ∧ r.honors = true ∧
      r.advance? (t :: rest.map Prod.snd) = some f ∧
      ∀ f', r.advance? (.marker :: t :: rest.map Prod.snd) = some f' →
        Reader.start.advance? (kinds (insertMarker source i).toList) = some f' := by
  have whole : kinds source.toList = before.map Prod.snd ++ t :: rest.map Prod.snd := by
    rw [kinds, cut, List.map_append, List.map_cons]
  have sound : ∀ t ∈ before, t.2.Sound := fun t listed =>
    Reader.sound_of_advance? taken t.2 (whole ▸ List.mem_append_left _ (List.mem_map_of_mem listed))
  rw [whole, Reader.advance?_append] at taken
  obtain ⟨r, read, others⟩ := Option.bind_eq_some_iff.1 taken
  refine ⟨r, read, Reader.honors_advance? read, others, fun f' behind => ?_⟩
  rw [kinds_insertMarker cut sound, Reader.advance?_append, read]
  exact behind

/-- A marker in front of a piece marks the nodes that the piece completes, and one in front
of a quantifier that has none marks its repetition.  Nothing else changes. -/
theorem parse_insertMarker {source : String} {p : Pattern} (parsed : parse source = .ok p)
    {before rest : List (Nat × Token)} {i : Nat} {t : Token}
    (cut : tokens source.toList = before ++ (i, t) :: rest) :
    ∃ r, Reader.start.advance? (before.map Prod.snd) = some r ∧
      (r.Between (t :: rest.map Prod.snd) → t.endsBranch = false →
        ∃ q after p', r.ReadsPiece (t :: rest.map Prod.snd) q after ∧
          parse (insertMarker source i) = .ok p' ∧
          p.Remarks p' fun id => r.completed ≤ id ∧ id < q.completed) ∧
      (∀ bounds, t = .quantifier bounds → r.waiting = .none →
        ∃ quantifier q tag body p', bounds = .ok quantifier ∧ r.advance? [t] = some q ∧
          Node.rep tag quantifier body ∈ p.root.nodes ∧ tag.id + 1 = q.completed ∧
          parse (insertMarker source i) = .ok p' ∧ p.Remarks p' (· = tag.id)) := by
  obtain ⟨f, taken, waiting, groups, rfl⟩ := parse_eq_ok.1 parsed
  obtain ⟨r, read, honors, others, behind⟩ := exists_reader taken cut
  refine ⟨r, read, fun between starts => ?_, fun bounds quantified unmarked => ?_⟩
  · obtain ⟨q, after, f', own, added, piece, others', agree, some, stamps, further, further'⟩ :=
      between.marker starts honors others groups waiting
    obtain ⟨p', parsed', remarks⟩ :=
      parse_of_agree taken waiting groups (behind f' others') agree some further further'
    have completed : q.completed = r.completed + own.length := by
      rw [Reader.completed, stamps, List.length_append]
      rfl
    exact ⟨q, after, p', piece, parsed', completed ▸ remarks⟩
  · subst quantified
    obtain ⟨quantifier, q, f', rest, own, added, rfl, step, repeats, others', agree, stamps,
      further, further'⟩ := Reader.marker_quantifier unmarked honors others
    obtain ⟨p', parsed', remarks⟩ := parse_of_agree taken waiting groups (behind f' others') agree
      (List.cons_ne_nil own []) further further'
    obtain ⟨tag, body, owned, place⟩ :=
      exists_rep (wellFormed_parse parsed) groups further repeats
    have completed : q.completed = tag.id + 1 := by
      rw [Reader.completed, stamps, List.length_append, place]
      rfl
    refine ⟨quantifier, q, tag, body, p', rfl, Reader.advance?_cons_eq_some.2 ⟨q, step, rfl⟩, owned,
      completed.symm, parsed', remarks.of_iff fun id => ?_⟩
    rw [place, List.length_singleton]
    omega

theorem parse_insertMarker_run : ∃ p, parse "ab*c" = .ok p ∧
    (∃ p', parse (insertMarker "ab*c" 1) = .ok p' ∧ p.Remarks p' fun id => 1 ≤ id ∧ id < 3) ∧
    ∃ p', parse (insertMarker "ab*c" 2) = .ok p' ∧ p.Remarks p' (· = 2) := by
  have parsed : parse "ab*c" = .ok _ := rfl
  refine ⟨_, parsed, ?_, ?_⟩
  · have cut : tokens "ab*c".toList = [(0, .literal 'a')] ++ (1, .literal 'b') ::
        [(2, .quantifier (.ok ⟨0, none, false⟩)), (3, .literal 'c')] := rfl
    obtain ⟨r, taken, piece, -⟩ := parse_insertMarker parsed cut
    cases taken
    have between : Reader.Between (Reader.start.literal 'a')
        [.literal 'b', .quantifier (.ok ⟨0, none, false⟩), .literal 'c'] :=
      ⟨rfl, rfl, by rintro _ _ _ _ _ _ ⟨⟩; rfl⟩
    obtain ⟨q, after, p', reads, parsed', remarks⟩ := piece between rfl
    have known : Reader.ReadsPiece (Reader.start.literal 'a')
        [.literal 'b', .quantifier (.ok ⟨0, none, false⟩), .literal 'c'] _ [.literal 'c'] :=
      ⟨⟨[.literal 'b', .quantifier (.ok ⟨0, none, false⟩)], rfl, rfl⟩, rfl,
        ⟨_, LastPiece.noConfusion, rfl⟩, rfl, rfl, by rintro _ _ _ _ _ ⟨⟩⟩
    obtain ⟨rfl, -⟩ := reads.unique known
    exact ⟨p', parsed', remarks⟩
  · have cut : tokens "ab*c".toList = [(0, .literal 'a'), (1, .literal 'b')] ++
        (2, .quantifier (.ok ⟨0, none, false⟩)) :: [(3, .literal 'c')] := rfl
    obtain ⟨r, taken, -, quantified⟩ := parse_insertMarker parsed cut
    cases taken
    obtain ⟨_, q, tag, body, p', same, taken, -, place, parsed', remarks⟩ := quantified _ rfl rfl
    cases same
    cases taken
    have second : tag.id = 2 := Nat.succ.inj place
    exact ⟨p', parsed', second ▸ remarks⟩

end Pattern

end PatternSampler
