/-
Lexicon.Proofs.Search.Auditing — no search has a number in use that is not a rank.

The searches of a dictionary are made of the moves of its cascade, and with the audited moves they
give no answer once a number kept from one link, key or node to the next is not the rank of its
place. Since either moves follow the tree, one request comes to the outcome of the dictionary
(`Moves.Follow.serve?_eq`). The agent then stands in the tree again, also when it has put down a
tour, so rows of requests follow by induction (`Dictionary.serveAll?_eq`).
-/
import Lexicon.Proofs.Cascade.Auditing
import Lexicon.Proofs.Search.Safety

namespace Lexicon

namespace Dictionary

/-- What `Dictionary.serve` comes to, if the three searches that move about in the levels are made
of the given moves. -/
def serve? (moves : Cascade → Moves) (d : Dictionary) (a : Agent) (r : Request) :
    Option (Agent × Except Fault Bool) :=
  match d.cascade, r with
  | some c, .lookup => ((moves c).searchExact? a).map fun (a, hit) => (a, .ok hit)
  | some c, .prefixSearch => ((moves c).searchPrefix? a).map fun (a, hit) => (a, .ok hit)
  | some c, .extensionSearch => ((moves c).searchExtension? a).map fun (a, hit) => (a, .ok hit)
  | _, r => some (d.serve a r)

/-- What `Dictionary.serveAll` comes to, if the searches are made of the given moves. -/
def serveAll? (moves : Cascade → Moves) :
    Agent → List (Dictionary × Request) → Option (List (Agent × Except Fault Bool))
  | _, [] => some []
  | a, (d, r) :: rest => do
    let served ← d.serve? moves a r
    let others ← serveAll? moves served.1 rest
    some (served :: others)

end Dictionary

namespace Moves.Follow

variable {c : Cascade} {s : Shape} {a : Agent}

/-- One request comes to the outcome of the dictionary. -/
theorem serve?_eq {moves : Cascade → Moves} (hm : (moves c).Follow s) (h : c.Tells s)
    (ha : a.Stands s) (r : Request) :
    Dictionary.serve? moves ⟨some c⟩ a r = some (Dictionary.serve ⟨some c⟩ a r) := by
  have hsound := hm.sound
  cases r with
  | setQuery | setQueryId | initState | clear | reverseLookup => rfl
  | lookup =>
    obtain ⟨found, hfound, _⟩ := Moves.exists_searchExact? hsound a
    simp [Dictionary.serve?, Dictionary.serve, Dictionary.lookup, Dictionary.search, hfound hm,
      hfound h.follow]
  | prefixSearch =>
    obtain ⟨found, hfound, _⟩ := Moves.exists_searchPrefix? hsound ha
    simp [Dictionary.serve?, Dictionary.serve, Dictionary.prefixSearch, Dictionary.search,
      hfound hm, hfound h.follow]
  | extensionSearch =>
    obtain ⟨found, hfound, _⟩ := Moves.exists_searchExtension? hsound ha
    simp [Dictionary.serve?, Dictionary.serve, Dictionary.extensionSearch, Dictionary.search,
      hfound hm, hfound h.follow]

end Moves.Follow

namespace Dictionary

/-- A row of requests comes to what the dictionaries make of it, if each of them tells the tree. -/
theorem serveAll?_eq {moves : Cascade → Moves} {s : Shape} :
    ∀ {schedule : List (Dictionary × Request)} {a : Agent}, a.Stands s →
    (∀ x ∈ schedule, ∃ c : Cascade, x.1 = ⟨some c⟩ ∧ c.Tells s ∧ (moves c).Follow s) →
    serveAll? moves a schedule = some (serveAll a schedule)
  | [], _, _, _ => rfl
  | (d, r) :: schedule, a, ha, hall => by
      obtain ⟨c, rfl, h, hm⟩ := hall (d, r) List.mem_cons_self
      obtain ⟨_, hstands⟩ := serve_of_tells h h ha r
      have hrest := serveAll?_eq hstands fun x hx => hall x (List.mem_cons_of_mem _ hx)
      simp [serveAll?, serveAll, hm.serve?_eq h ha r, hrest]

/-- What is built tells a tree and counts the bits that spell it, with its caches and without. -/
theorem build_counts {ks : Keyset} {config : Config} (hlimits : ks.WithinLimits)
    (hvalid : config.Valid) :
    ∃ c s ks', Dictionary.build ks config = .ok (⟨some c⟩, ks') ∧ ks.SameKeys ks'
      ∧ c.Counts s ∧ c.withoutCache.Counts s := by
  have hbytes := Keyset.bytesOf_strings_lt hlimits
  obtain ⟨c, ks', hbuild, hsame, hlaid, hlays', htops'⟩ := exists_build hvalid
    (Cascade.build_and
      (Cascade.build_laid config (config.levels - 1) .forward ks.strings hbytes)
      (Cascade.build_withoutCache config (config.levels - 1) .forward ks.strings hbytes))
  have hstands := hlaid.1
  -- Clearing the caches leaves the bits as they are.
  exact ⟨c, _, ks', hbuild, hsame, ⟨⟨hstands.lays, hstands.tops⟩, hstands.louds_rank1?⟩,
    ⟨hlays', htops' rfl⟩, hstands.louds_rank1?⟩

/-- The numbers that searches keep are the ranks counted from scratch. A keyset within the limits is
built with any weights, and whatever an agent without a suspended search is asked, in any order and
each time of any version of the dictionary, the searches come to what the dictionaries make of it
when they are made of the audited moves as when they are made of the others: every link that a scan
or a tour meets has its rank for its number, every key that a tour reports as well, and every frame
has for its node the number of ones before the bit that it reads, when it is new, when it goes on to
the next family and when it was put down in between. -/
theorem serveAll?_counted {ks : Keyset} {config : Config} (hlimits : ks.WithinLimits)
    (hvalid : config.Valid) :
    ∃ d ks', Dictionary.build ks config = .ok (d, ks') ∧ ks.SameKeys ks'
      ∧ ∀ (a : Agent) (schedule : List (Dictionary × Request)),
        a.searchState.progress = .fresh → (∀ x ∈ schedule, Version d x.1) →
        serveAll? Cascade.moves a schedule = some (serveAll a schedule)
          ∧ serveAll? Cascade.auditedMoves a schedule = some (serveAll a schedule) := by
  obtain ⟨c, s, ks', hbuild, hsame, hcounts, hcleared⟩ := build_counts hlimits hvalid
  have hstorable := storable_of_build hlimits hvalid hbuild
  refine ⟨⟨some c⟩, ks', hbuild, hsame, ?_⟩
  intro a schedule hfresh hall
  have hserve : ∀ moves : Cascade → Moves,
      (∀ c' : Cascade, c'.Counts s → (moves c').Follow s) →
      serveAll? moves a schedule = some (serveAll a schedule) := by
    intro moves hm
    refine serveAll?_eq (s := s) (Agent.stands_of_fresh hfresh) ?_
    intro x hx
    rcases (hall x hx).eq_or hstorable with hself | hwithout
    · exact ⟨c, hself, hcounts.tells, hm c hcounts⟩
    · exact ⟨c.withoutCache, hwithout, hcleared.tells, hm c.withoutCache hcleared⟩
  exact ⟨hserve _ fun _ h => h.tells.follow, hserve _ fun _ h => h.follow_auditedMoves⟩

/-- A search for extensions goes on from the links below the node of `a` to those below the node of
`d`, once with its caches and once without; a search for prefixes and an exact one follow. -/
theorem serveAll?_counted_families : ∃ d ks',
    Dictionary.build (.ofList [[97, 98, 99], [97], [97, 120, 121], [100, 98, 99], [100, 120, 121]])
        { levels := 2 } = .ok (d, ks')
      ∧ ∃ outcomes, serveAll? Cascade.auditedMoves {} [(d, .setQuery []), (d, .extensionSearch),
          (d.withoutCache, .extensionSearch), (d, .extensionSearch),
          (d.withoutCache, .extensionSearch), (d, .extensionSearch), (d, .extensionSearch),
          (d, .setQuery [97, 120, 121]), (d.withoutCache, .prefixSearch), (d, .prefixSearch),
          (d.withoutCache, .lookup)] = some outcomes := by
  have hlimits : (Keyset.ofList [[97, 98, 99], [97], [97, 120, 121], [100, 98, 99],
      [100, 120, 121]]).WithinLimits := by decide
  have hvalid : ({ levels := 2 } : Config).Valid := by decide
  obtain ⟨d, ks', hbuild, _, hall⟩ := serveAll?_counted hlimits hvalid
  refine ⟨d, ks', hbuild, _, (hall {} _ rfl ?_).2⟩
  intro x hx
  simp only [List.mem_cons, List.not_mem_nil, or_false] at hx
  rcases hx with rfl | rfl | rfl | rfl | rfl | rfl | rfl | rfl | rfl | rfl | rfl
  all_goals first | exact .built | exact .cleared .built

end Dictionary

end Lexicon
