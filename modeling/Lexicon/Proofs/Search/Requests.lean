/-
Lexicon.Proofs.Search.Requests — requests one after the other, and that caches do not show.

A search that is suspended stands in the tree of the keys (`Agent.Stands`). From there every
search comes to one answer for all moves that follow the tree; the agent then stands in the
tree again, and its last key is one that can be taken (`Agent.Proceeds`). So a request is
served alike by all cascades that tell the tree, and never fails by the levels
(`Dictionary.serve_spec`), and one may take over from another at any point of a row
(`serveAll_of_tells`), which for a dictionary and the same without its caches is
`serveAll_withoutCache`.
-/
import Lexicon.Proofs.Cascade.Clearing
import Lexicon.Proofs.Search.Reverse
import Lexicon.Requests

namespace Lexicon

/-! ## Where a search leaves an agent -/

namespace Agent

/-- The last key can be taken: a front of the query is no longer than the query, and what the buffer
holds is in a buffer. -/
def KeyDefined (a : Agent) : Prop :=
  match a.answer with
  | .nothing => True
  | .front length _ => length ≤ a.query.length
  | .buffered _ => a.hasState = true

variable {a a' : Agent} {s : Shape}

/-- An agent with the same answer to the same query can be asked for its key as before. -/
theorem KeyDefined.keep (h : a.KeyDefined) (hanswer : a'.answer = a.answer)
    (hquery : a'.query = a.query) (hstate : a'.hasState = true) : a'.KeyDefined := by
  unfold KeyDefined at h ⊢
  rw [hanswer, hquery]
  cases hcase : a.answer with
  | nothing => trivial
  | front length id =>
    rw [hcase] at h
    exact h
  | buffered id => exact hstate

/-- The agent after a search stands in the tree, and if its last key could be taken before, so can
it be now. -/
structure Proceeds (s : Shape) (a a' : Agent) : Prop where
  stands : a'.Stands s
  keyDefined : a.KeyDefined → a'.KeyDefined

/-- What a search leaves stands in the tree, and a front that it finds is no longer than the query. -/
theorem proceeds_after {state : SearchState} {answer : Option Answer}
    (hstands : state.progress.Stands s a.query)
    (hfront : ∀ length id, answer = some (.front length id) → length ≤ a.query.length) :
    a.Proceeds s (a.after state answer).1 := by
  refine ⟨?_, ?_⟩
  · unfold Stands
    rwa [searchState_after, query_after]
  · intro hkey
    cases answer with
    | none => exact hkey.keep rfl rfl rfl
    | some answer =>
      cases answer with
      | nothing => trivial
      | front length id => exact hfront length id rfl
      | buffered id => rfl

theorem proceeds_reset (a : Agent) (s : Shape) : a.Proceeds s a.reset :=
  ⟨stands_of_fresh (searchState_reset a), fun _ => trivial⟩

theorem initState_eq_ok (h : a.initState = .ok a') :
    a.state = none ∧ a' = { a with state := some {} } := by
  unfold initState hasState at h
  cases hstate : a.state with
  | none =>
    rw [hstate] at h
    exact ⟨rfl, (Except.ok.inj h).symm⟩
  | some state =>
    rw [hstate] at h
    cases h

theorem initState_eq_error {fault : Fault} (h : a.initState = .error fault) :
    fault = .alreadyInitialized := by
  unfold initState at h
  split at h
  · exact (Except.error.inj h).symm
  · cases h

end Agent

/-! ## The searches in the tree -/

namespace Moves

variable {s : Shape} {a : Agent}

theorem exists_searchExact? (hsound : s.Sound) (a : Agent) :
    ∃ found : Agent × Bool, (∀ {m : Moves}, m.Follow s → m.searchExact? a = some found)
      ∧ a.Proceeds s found.1 := by
  obtain ⟨found, hfound, _⟩ := SearchState.lookup?_spec hsound a.query
  refine ⟨_, fun hm => congrArg (Option.map _) (hfound a.searchState hm), ?_⟩
  refine Agent.proceeds_after (Progress.stands_of_fresh rfl) ?_
  intro length id hfront
  obtain ⟨_, _, heq⟩ := Option.map_eq_some_iff.mp hfront
  cases heq
  exact Nat.le_refl _

theorem exists_searchId? (hsound : s.Sound) (ha : a.Stands s) :
    ∃ found : Agent × Except Fault Unit,
      (∀ {m : Moves}, m.Follow s → m.searchId? a = some found)
      ∧ a.Proceeds s found.1 ∧ found.2 ≠ .error .corrupt := by
  by_cases hlt : a.queryId < s.terminalBits.count true
  · obtain ⟨word, hword⟩ := (Shape.exists_keyed_iff hsound).mpr hlt
    refine ⟨((a.after { buffer := word } (some (.buffered a.queryId))).1, .ok ()), ?_,
      Agent.proceeds_after (Progress.stands_of_fresh rfl) ?_, ?_⟩
    · intro m hm
      rw [searchId?, hm.numKeys, if_pos hlt]
      exact congrArg (Option.map _) (SearchState.restore?_of_keyed hm hword a.searchState)
    · intro length id hfront
      cases hfront
    · intro hcorrupt
      cases hcorrupt
  · refine ⟨((a.after a.searchState none).1,
        .error (.unknownId a.queryId (s.terminalBits.count true))), ?_,
      Agent.proceeds_after ha ?_, ?_⟩
    · intro m hm
      rw [searchId?, hm.numKeys, if_neg hlt]
    · intro length id hfront
      cases hfront
    · intro hcorrupt
      cases hcorrupt

theorem exists_searchPrefix? (hsound : s.Sound) (ha : a.Stands s) :
    ∃ found : Agent × Bool, (∀ {m : Moves}, m.Follow s → m.searchPrefix? a = some found)
      ∧ a.Proceeds s found.1 := by
  obtain ⟨state, found, hfound, hstands, hlength⟩ := SearchState.nextPrefix?_spec hsound ha
  refine ⟨_, fun hm => congrArg (Option.map _) (hfound hm), Agent.proceeds_after hstands ?_⟩
  intro length id hfront
  obtain ⟨hit, hhit, heq⟩ := Option.map_eq_some_iff.mp hfront
  cases heq
  exact hlength hit hhit

theorem exists_searchExtension? (hsound : s.Sound) (ha : a.Stands s) :
    ∃ found : Agent × Bool, (∀ {m : Moves}, m.Follow s → m.searchExtension? a = some found)
      ∧ a.Proceeds s found.1 := by
  obtain ⟨state, found, hfound, hstands⟩ := SearchState.nextExtension?_spec hsound ha
  refine ⟨_, fun hm => congrArg (Option.map _) (hfound hm), Agent.proceeds_after hstands ?_⟩
  intro length id hfront
  obtain ⟨_, _, heq⟩ := Option.map_eq_some_iff.mp hfront
  cases heq

end Moves

/-! ## One cascade in place of another -/

namespace Dictionary

variable {c c' : Cascade} {s : Shape} {a : Agent}

/-- A request is served alike by all cascades that tell the tree in which the agent stands, and is
never refused because the levels are corrupt; the agent stands in the tree again. -/
theorem serve_spec (hsound : s.Sound) (ha : a.Stands s) (r : Request) :
    ∃ served, (∀ {c : Cascade}, c.Tells s → serve ⟨some c⟩ a r = served)
      ∧ a.Proceeds s served.1 ∧ served.2 ≠ .error .corrupt := by
  cases r with
  | setQuery query =>
    exact ⟨_, fun _ => rfl, ⟨(Agent.proceeds_reset _ s).stands, fun _ => trivial⟩, nofun⟩
  | setQueryId id =>
    exact ⟨_, fun _ => rfl, ⟨(Agent.proceeds_reset _ s).stands, fun _ => trivial⟩, nofun⟩
  | clear => exact ⟨_, fun _ => rfl, ⟨trivial, fun _ => trivial⟩, nofun⟩
  | initState =>
    refine ⟨_, fun _ => rfl, ?_⟩
    cases hinit : a.initState with
    | ok a' =>
      obtain ⟨_, rfl⟩ := Agent.initState_eq_ok hinit
      exact ⟨⟨trivial, fun hkey => hkey.keep rfl rfl rfl⟩, nofun⟩
    | error fault =>
      obtain rfl := Agent.initState_eq_error hinit
      refine ⟨⟨ha, id⟩, ?_⟩
      intro hcorrupt
      cases hcorrupt
  | lookup =>
    obtain ⟨found, hfound, hproceeds⟩ := Moves.exists_searchExact? hsound a
    refine ⟨(found.1, .ok found.2), fun htells => ?_, hproceeds, nofun⟩
    exact search_hit (f := fun m => m.searchExact? a) (hfound htells.follow)
  | reverseLookup =>
    obtain ⟨found, hfound, hproceeds, hnot⟩ := Moves.exists_searchId? hsound ha
    refine ⟨(found.1, found.2.map fun _ => true), fun htells => ?_, hproceeds, ?_⟩
    · have hsearch : reverseLookup ⟨some _⟩ a = found := search_of_eq_some (hfound htells.follow)
      rw [serve, hsearch]
    · intro hcorrupt
      apply hnot
      cases houtcome : found.2 with
      | ok _ =>
        rw [houtcome] at hcorrupt
        cases hcorrupt
      | error fault =>
        rw [houtcome] at hcorrupt
        cases hcorrupt
        rfl
  | prefixSearch =>
    obtain ⟨found, hfound, hproceeds⟩ := Moves.exists_searchPrefix? hsound ha
    refine ⟨(found.1, .ok found.2), fun htells => ?_, hproceeds, nofun⟩
    exact search_hit (f := fun m => m.searchPrefix? a) (hfound htells.follow)
  | extensionSearch =>
    obtain ⟨found, hfound, hproceeds⟩ := Moves.exists_searchExtension? hsound ha
    refine ⟨(found.1, .ok found.2), fun htells => ?_, hproceeds, nofun⟩
    exact search_hit (f := fun m => m.searchExtension? a) (hfound htells.follow)

/-- Two cascades that tell one tree serve a request alike, and the search stands in it again. -/
theorem serve_of_tells (h : c.Tells s) (h' : c'.Tells s) (ha : a.Stands s) (r : Request) :
    serve ⟨some c'⟩ a r = serve ⟨some c⟩ a r ∧ (serve ⟨some c⟩ a r).1.Stands s := by
  obtain ⟨served, hserve, hproceeds, _⟩ := serve_spec h.lays.sound ha r
  rw [hserve h, hserve h']
  exact ⟨rfl, hproceeds.stands⟩

/-- Whichever of two cascades of one tree serves each request, a row of them comes to the same. -/
theorem serveAll_of_tells (h : c.Tells s) (h' : c'.Tells s) :
    ∀ {schedule : List (Dictionary × Request)} {a : Agent}, a.Stands s →
    (∀ x ∈ schedule, x.1 = ⟨some c⟩ ∨ x.1 = ⟨some c'⟩) →
    serveAll a schedule = serveAll a (schedule.map fun x => (⟨some c⟩, x.2))
  | [], _, _, _ => rfl
  | (d, r) :: schedule, a, ha, hall => by
      obtain ⟨hserve, hstands⟩ := serve_of_tells h h' ha r
      have hd : serve d a r = serve ⟨some c⟩ a r := by
        rcases hall (d, r) List.mem_cons_self with rfl | rfl
        · rfl
        · exact hserve
      have hrest := serveAll_of_tells h h' hstands
        fun x hx => hall x (List.mem_cons_of_mem (d, r) hx)
      simp only [serveAll, List.map_cons, hd, hrest]

/-- Clearing the caches does not show: whenever some requests of a row go to the dictionary without
its caches, in the middle of a search as well, the outcome of each and the whole agent after it,
with its key and its id, are those of the row served by the dictionary alone. -/
theorem serveAll_withoutCache {ks : Keyset} {config : Config} (hlimits : ks.WithinLimits)
    (hvalid : config.Valid) :
    ∃ d ks', Dictionary.build ks config = .ok (d, ks') ∧ ks.SameKeys ks'
      ∧ ∀ (a : Agent) (schedule : List (Dictionary × Request)),
        a.searchState.progress = .fresh → (∀ x ∈ schedule, x.1 = d ∨ x.1 = d.withoutCache) →
        serveAll a schedule = serveAll a (schedule.map fun x => (d, x.2)) := by
  obtain ⟨c, s, ks', hbuild, hsame, hindexes, hcleared⟩ :=
    Dictionary.build_spec_withoutCache hlimits hvalid
  refine ⟨⟨some c⟩, ks', hbuild, hsame, ?_⟩
  intro a schedule hfresh hall
  exact serveAll_of_tells hindexes.tells hcleared (Agent.stands_of_fresh hfresh) hall

/-- A search for extensions that the dictionary began is taken up without its caches, and the other
way round. -/
theorem serveAll_handover : ∃ d ks',
    Dictionary.build (.ofList [[97, 98, 99, 100], [97], [97, 98, 99, 100, 101]]) {} = .ok (d, ks')
      ∧ serveAll {} [(d, .setQuery [97, 98]), (d, .extensionSearch),
          (d.withoutCache, .extensionSearch), (d, .extensionSearch)]
        = serveAll {} [(d, .setQuery [97, 98]), (d, .extensionSearch), (d, .extensionSearch),
          (d, .extensionSearch)] := by
  have hlimits : (Keyset.ofList
      [[97, 98, 99, 100], [97], [97, 98, 99, 100, 101]]).WithinLimits := by decide
  have hvalid : ({} : Config).Valid := by decide
  obtain ⟨d, ks', hbuild, _, hall⟩ := serveAll_withoutCache hlimits hvalid
  exact ⟨d, ks', hbuild, hall {} _ rfl (by simp)⟩

end Dictionary

end Lexicon
