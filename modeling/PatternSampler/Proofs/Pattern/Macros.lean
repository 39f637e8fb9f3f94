import PatternSampler.Proofs.Grammar.Tokens
import PatternSampler.Proofs.Pattern.Enclosed
import PatternSampler.Proofs.Pattern.Markers

/-!
# Spelling out a GUID

The name `[:guid:]` can be replaced by the pattern that it stands for, in a group that captures
nothing, wherever it is read as an atom.  One node is added to the tree, and nothing else
changes: not what is matched, nor what is generated, nor which draws are made for it.
-/

namespace PatternSampler

/-- The text with the name at a position replaced by what it stands for. -/
def spellOutGuid (text : String) (i : Nat) : String :=
  String.ofList (text.toList.take i ++ '(' :: '?' :: ':' :: (guidPattern.toList ++
    ')' :: text.toList.drop (i + "[:guid:]".length)))

theorem read_guidPattern : Phrase.read guidPattern.toList = .ok .guid := rfl

theorem sound_guidPattern : ∀ t ∈ kinds guidPattern.toList, t.Sound := by
  obtain ⟨f, taken, -⟩ := Phrase.read_eq_ok.1 read_guidPattern
  exact Reader.sound_of_advance? taken

theorem guid_of_tokensFrom {i : Nat} {v : List Char} {rest : List (Nat × Token)}
    (h : tokensFrom i 0 v = (i, .guid) :: rest) :
    ∃ tail, v = "[:guid:]".toList ++ tail ∧ rest.map Prod.snd = kinds tail := by
  cases v with
  | nil => cases h
  | cons c cs =>
      obtain ⟨others, starts⟩ := exists_tokensFrom i c cs
      have first : (scanToken c cs).1 = .guid := by
        rw [starts] at h
        exact (Prod.mk.inj (List.cons.inj h).1).2
      have scan : scanToken c cs = (.guid, (scanToken c cs).2) := Prod.ext first rfl
      obtain ⟨w, tail, text, length, spells⟩ := Grammar.begins_token scan trivial
      cases spells
      obtain ⟨rfl, rfl⟩ := List.cons.inj text
      rw [← length] at scan
      have whole : kinds ('[' :: ([':', 'g', 'u', 'i', 'd', ':', ']'] ++ tail)) =
          .guid :: kinds tail := kinds_cons scan trivial
      have named : kinds ('[' :: ([':', 'g', 'u', 'i', 'd', ':', ']'] ++ tail)) =
          .guid :: rest.map Prod.snd := by
        rw [kinds, tokens, map_tokensFrom 0 i]
        exact congrArg (List.map Prod.snd) h
      exact ⟨tail, rfl, (List.cons.inj (named.symm.trans whole)).2⟩

theorem kinds_spellOutGuid {text : String} {before rest : List (Nat × Token)} {i : Nat}
    (cut : tokens text.toList = before ++ (i, .guid) :: rest)
    (sound : ∀ t ∈ before, t.2.Sound) :
    kinds (spellOutGuid text i).toList = before.map Prod.snd ++
      (.opening .plain :: kinds guidPattern.toList ++ [.closing]) ++ rest.map Prod.snd := by
  obtain ⟨u, v, split, place, cuts, next⟩ := exists_cuts cut sound
  obtain rfl : i = u.length := by omega
  obtain ⟨tail, rfl, others⟩ := guid_of_tokensFrom next
  have spelled : (spellOutGuid text u.length).toList =
      u ++ '(' :: '?' :: ':' :: (guidPattern.toList ++ ')' :: tail) := by
    have behind : text.toList.drop (u.length + "[:guid:]".length) = tail := by
      rw [split, ← List.drop_drop, List.drop_left]
      rfl
    rw [spellOutGuid, String.toList_ofList, behind, split, List.take_left]
  have apart : Apart ('(' :: '?' :: ':' :: (guidPattern.toList ++ ')' :: tail)) :=
    apart_cons (by decide) (by decide)
  rw [spelled, (cuts.replace apart).kinds_eq, kinds_plain, kinds_enclosed sound_guidPattern, others]
  simp

theorem Reader.advance?_guidPattern (r : Reader) :
    r.advance? (.opening .plain :: kinds guidPattern.toList ++ [.closing]) =
      some (r.atom (.group .guid)) := by
  obtain ⟨level, groups, captures, closed, waiting, honors, hasMarker⟩ := r
  have taken : advance? ⟨level, groups, captures, closed, waiting, honors, hasMarker⟩
      (.opening .plain :: kinds guidPattern.toList ++ [.closing]) =
      some ⟨level.begin (.atom (waiting.isMarked && honors) (.group .guid)), groups, captures,
        closed ++ [] ++ [], .none, honors, hasMarker⟩ := rfl
  rw [taken, List.append_nil, List.append_nil]
  rfl

namespace Pattern

theorem encloses_of_place {m : Nat} {F : Phrase → Phrase} (h : Phrase.Place m F) :
    (ofPhrase (F .guid)).Encloses (m + 11) (ofPhrase (F (.group .guid))) ∧
      ∃ n ∈ (ofPhrase (F .guid)).root.nodes, n.id = m + 11 ∧
        n.tree = (ofPhrase .guid).root.tree := by
  have numbered : (F (.group .guid)).number false .start =
      (((F .guid).number false .start).1.enclosed (m + 11),
        ((F .guid).number false .start).2.enclosed (m + 11)) := by
    obtain ⟨pieces, guid, several, count⟩ : ∃ pieces, Phrase.guid = .sequence pieces ∧
        2 ≤ pieces.length ∧ Phrase.countIn pieces = 11 := ⟨_, rfl, by decide, rfl⟩
    rw [guid]
    refine h.number_enclosed several false (Numbering.enclosed_start _) ?_
    rw [count]
    simp [Numbering.start]
  refine ⟨⟨?_, h.hasMarker_eq rfl, ?_⟩, ?_⟩
  · exact congrArg Prod.fst numbered
  · have groups := congrArg (fun numbered => numbered.2.groups.length) numbered
    exact groups.trans (List.length_map _)
  · obtain ⟨inner, t, next, owned⟩ := h.exists_node .guid false .start
    refine ⟨_, owned, ?_, rfl⟩
    have last : (Phrase.guid.number inner t).1.id = t.next + 11 := rfl
    rw [last, next]
    simp [Numbering.start]

theorem exists_spelledOut {source : String} {p : Pattern} (parsed : parse source = .ok p)
    {before rest : List (Nat × Token)} {i : Nat}
    (cut : tokens source.toList = before ++ (i, .guid) :: rest) :
    ∃ r m F, Reader.start.advance? (before.map Prod.snd) = some r ∧ r.completed = m ∧
      Phrase.Place m F ∧ p = ofPhrase (F .guid) ∧
      parse (spellOutGuid source i) = .ok (ofPhrase (F (.group .guid))) := by
  obtain ⟨f, taken, waiting, groups, rfl⟩ := parse_eq_ok.1 parsed
  obtain ⟨r, read, -, others, -⟩ := exists_reader taken cut
  have whole : kinds source.toList = before.map Prod.snd ++ .guid :: rest.map Prod.snd := by
    rw [kinds, cut, List.map_append, List.map_cons]
  have sound : ∀ t ∈ before, t.2.Sound := fun t listed =>
    Reader.sound_of_advance? taken t.2 (whole ▸ List.mem_append_left _ (List.mem_map_of_mem listed))
  obtain ⟨F, place, phrase, reads⟩ := Reader.exists_place others groups waiting
  obtain ⟨f', taken', waiting', groups', phrase'⟩ := reads (.group .guid)
  refine ⟨r, _, F, read, rfl, place, congrArg ofPhrase phrase,
    parse_eq_ok.2 ⟨f', ?_, waiting', groups', congrArg ofPhrase phrase'⟩⟩
  rw [kinds_spellOutGuid cut sound, Reader.advance?_append, Reader.advance?_append, read,
    Option.bind_some, Reader.advance?_guidPattern]
  exact taken'

/-- A name of a GUID can be spelled out wherever it is read as an atom.  The tree gets one node
more, a group around the node `k` that the name completes last, and all its other nodes keep
their order, their marks and what they hold.  The eligible nodes, the texts that are matched and
the results of every synthesis stay the same. -/
theorem parse_spellOutGuid {source : String} {p : Pattern} (parsed : parse source = .ok p)
    {before rest : List (Nat × Token)} {i : Nat}
    (cut : tokens source.toList = before ++ (i, .guid) :: rest) :
    ∃ q k n p', Reader.start.advance? (before.map Prod.snd ++ [.guid]) = some q ∧
      q.completed = k + 1 ∧ n ∈ p.root.nodes ∧ n.id = k ∧
      n.tree = (ofPhrase .guid).root.tree ∧ parse (spellOutGuid source i) = .ok p' ∧
      p.Encloses k p' ∧
      p'.root.nodes = (p.root.nodes.take (k + 1)).map (Node.raised k) ++
        .group ⟨k + 1, n.marked⟩ (n.raised k) :: (p.root.nodes.drop (k + 1)).map (Node.raised k) ∧
      p'.eligible = p.eligible.map (Node.raised k) ∧
      (∀ (slack : Nat) (seed : UInt64),
        (synthesizeSeeded (spellOutGuid source i) slack seed).mapError GenerationError.report =
          (synthesizeSeeded source slack seed).mapError GenerationError.report) ∧
      (∀ text, p'.isMatch text = p.isMatch text) ∧
      ∃ plain plain', parseUnmarked source = .ok plain ∧
        parseUnmarked (spellOutGuid source i) = .ok plain' ∧
        ∀ text, plain'.isMatch text = plain.isMatch text := by
  obtain ⟨r, m, F, read, rfl, place, rfl, parsed'⟩ := exists_spelledOut parsed cut
  obtain ⟨encloses, n, owned, last, tree⟩ := encloses_of_place place
  obtain ⟨plain, unmarked, same⟩ := exists_unmarked parsed
  obtain ⟨plain', unmarked', same'⟩ := exists_unmarked parsed'
  have completed : (r.atom .guid).completed = r.completed + 11 + 1 := by
    rw [Reader.completed, Reader.tally_atom, List.length_append, Phrase.length_stamps]
    rfl
  refine ⟨r.atom .guid, _, n, _, ?_, completed, owned, last, tree, parsed', encloses,
    ?_, encloses.eligible_eq, encloses.report_eq parsed parsed', encloses.isMatch_eq,
    plain, plain', unmarked, unmarked', fun text => ?_⟩
  · rw [Reader.advance?_append, read]
    rfl
  · rw [encloses.root]
    exact (wellFormed_parse parsed).nodes_enclosed owned last
  · rw [same, same', encloses.isMatch_eq]

/-- The group comes right behind the twelve nodes of the name, inside the capture. -/
theorem parse_spellOutGuid_captured : ∃ p p', parse "(\\i[:guid:])\\1" = .ok p ∧
    parse ("(\\i(?:" ++ guidPattern ++ "))\\1") = .ok p' ∧ p.Encloses 11 p' ∧
    ∀ text, p'.isMatch text = p.isMatch text := by
  have parsed : parse "(\\i[:guid:])\\1" = .ok _ := rfl
  have cut : tokens "(\\i[:guid:])\\1".toList =
      [(0, .opening (.capturing none)), (1, .marker)] ++ (3, .guid) ::
        [(11, .closing), (12, .reference (.number '1'))] := rfl
  have written : spellOutGuid "(\\i[:guid:])\\1" 3 = "(\\i(?:" ++ guidPattern ++ "))\\1" := rfl
  obtain ⟨q, k, n, p', taken, place, -, -, -, parsed', encloses, -, -, -, same, -⟩ :=
    parse_spellOutGuid parsed cut
  cases taken
  have last : k = 11 := (Nat.succ.inj place).symm
  exact ⟨_, p', parsed, written ▸ parsed', last ▸ encloses, same⟩

end Pattern

end PatternSampler
