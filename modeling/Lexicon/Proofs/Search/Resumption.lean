/-
Lexicon.Proofs.Search.Resumption — what a search that goes on depends on, and what it keeps.

The searches for prefixes and for extensions take up what an agent has suspended in their
own `Kind` and start over from anything else. So all that such a search sees of an agent is
the query and, if it goes on, the progress (`Agent.Alike`): agents that are alike for it
are delivered the same keys (`Dictionary.delivers_of_alike`). It leaves the query and the id
alone and can be gone on with (`Kept`).
-/
import Lexicon.Proofs.Search.Extensions
import Lexicon.Proofs.Search.Prefixes
import Lexicon.Proofs.Search.Simulation

namespace Lexicon

/-- The searches that deliver one key after the other. -/
inductive Kind
  | prefixes
  | extensions
  deriving DecidableEq, Repr

/-- Whether a search of some kind goes on from a progress. -/
def Kind.goes : Kind → Progress → Bool
  | .prefixes, .prefixes .. | .prefixes, .prefixesDone => true
  | .extensions, .extensions _ | .extensions, .extensionsDone => true
  | _, _ => false

/-- A search goes on from a progress of its own kind only. -/
theorem Kind.goes_eq_false {kind other : Kind} {progress : Progress}
    (h : other.goes progress = true) (hne : other ≠ kind) : kind.goes progress = false := by
  cases kind <;> cases other <;> cases progress <;> first | rfl | exact absurd rfl hne | cases h

namespace Moves

/-- Finds the next key of a search of some kind on the levels. -/
def searchNext? (m : Moves) : Kind → Agent → Option (Agent × Bool)
  | .prefixes => m.searchPrefix?
  | .extensions => m.searchExtension?

end Moves

namespace Dictionary

/-- Finds the next key of a search of some kind. -/
def searchNext (d : Dictionary) : Kind → Agent → Agent × Except Fault Bool
  | .prefixes => d.prefixSearch
  | .extensions => d.extensionSearch

theorem searchNext_eq (d : Dictionary) (kind : Kind) (a : Agent) :
    d.searchNext kind a
      = d.search a fun m => (m.searchNext? kind a).map fun (a, hit) => (a, .ok hit) := by
  cases kind <;> rfl

end Dictionary

/-! ## What a search depends on -/

namespace SearchState

variable {m : Moves} {query : List UInt8} {st st' : SearchState}

theorem nextPrefix?_restart (h : Kind.prefixes.goes st.progress = false) :
    st.nextPrefix? m query = st.startPrefix? m query := by
  unfold nextPrefix?
  cases hprogress : st.progress with
  | prefixes node length => rw [hprogress] at h; cases h
  | prefixesDone => rw [hprogress] at h; cases h
  | fresh | extensions | extensionsDone => rfl

theorem nextExtension?_restart (h : Kind.extensions.goes st.progress = false) :
    st.nextExtension? m query = startExtension? m query := by
  unfold nextExtension?
  cases hprogress : st.progress with
  | extensions tour => rw [hprogress] at h; cases h
  | extensionsDone => rw [hprogress] at h; cases h
  | fresh | prefixes | prefixesDone => rfl

/-- Two searches go on from one progress, or both start over. -/
def Alike (kind : Kind) (st st' : SearchState) : Prop :=
  st'.progress = st.progress
    ∨ kind.goes st.progress = false ∧ kind.goes st'.progress = false

theorem advancePrefix?_alike (st st' : SearchState) (node length : Nat) :
    Option.Rel (Found (Alike .prefixes)) (st.advancePrefix? m query node length)
      (st'.advancePrefix? m query node length) := by
  unfold advancePrefix?
  cases m.nextPrefix? node length (query.drop length) with
  | none => exact .none
  | some hit =>
    cases hit with
    | none => exact .some ⟨Or.inl rfl, rfl⟩
    | some hit => exact .some ⟨Or.inl rfl, rfl⟩

theorem startPrefix?_alike (st st' : SearchState) :
    Option.Rel (Found (Alike .prefixes)) (st.startPrefix? m query)
      (st'.startPrefix? m query) := by
  unfold startPrefix?
  cases m.keyAt? 0 with
  | none => exact .none
  | some found =>
    cases found with
    | none => exact advancePrefix?_alike st st' 0 0
    | some id => exact .some ⟨Or.inl rfl, rfl⟩

theorem nextPrefix?_alike (h : Alike .prefixes st st') :
    Option.Rel (Found (Alike .prefixes)) (st.nextPrefix? m query) (st'.nextPrefix? m query) := by
  rcases h with heq | ⟨hrestart, hrestart'⟩
  · unfold nextPrefix?
    rw [heq]
    cases st.progress with
    | prefixes node length => exact advancePrefix?_alike st st' node length
    | prefixesDone => exact .some ⟨Or.inl heq, rfl⟩
    | fresh | extensions | extensionsDone => exact startPrefix?_alike st st'
  · rw [nextPrefix?_restart hrestart, nextPrefix?_restart hrestart']
    exact startPrefix?_alike st st'

/-- A search for extensions that does not stay at its end writes the buffer anew. -/
theorem nextExtension?_alike (h : Alike .extensions st st') :
    st'.nextExtension? m query = st.nextExtension? m query
      ∨ (st.nextExtension? m query = some (st, none)
        ∧ st'.nextExtension? m query = some (st', none)) := by
  rcases h with heq | ⟨hrestart, hrestart'⟩
  · unfold nextExtension?
    rw [heq]
    cases st.progress with
    | extensions tour => exact Or.inl rfl
    | extensionsDone => exact Or.inr ⟨rfl, rfl⟩
    | fresh | prefixes | prefixesDone => exact Or.inl rfl
  · rw [nextExtension?_restart hrestart, nextExtension?_restart hrestart']
    exact Or.inl rfl

end SearchState

/-- Two agents with one query go on in a search of some kind in the same way, or start it over. -/
def Agent.Alike (kind : Kind) (a b : Agent) : Prop :=
  b.query = a.query ∧ a.searchState.Alike kind b.searchState

/-- Two searches had the same outcome and the same key, and can be gone on with in the same way. -/
structure AlikeFound (kind : Kind) (found found' : Agent × Bool) : Prop where
  outcome : found'.2 = found.2
  alike : Agent.Alike kind found.1 found'.1
  key : found.2 = true → found'.1.key = found.1.key ∧ found'.1.keyId = found.1.keyId

namespace Moves

variable {m : Moves} {a b : Agent}

theorem searchPrefix?_alike (h : Agent.Alike .prefixes a b) :
    Option.Rel (AlikeFound .prefixes) (m.searchPrefix? a) (m.searchPrefix? b) := by
  obtain ⟨hquery, halike⟩ := h
  unfold searchPrefix?
  rw [hquery]
  refine rel_map (SearchState.nextPrefix?_alike (m := m) halike) ?_
  rintro ⟨st, _⟩ ⟨st', found⟩ ⟨halike', rfl⟩
  cases found with
  | none => exact ⟨rfl, ⟨hquery, halike'⟩, nofun⟩
  | some hit => exact ⟨rfl, ⟨hquery, halike'⟩, fun _ => ⟨congrArg (List.take hit.2) hquery, rfl⟩⟩

theorem searchExtension?_alike (h : Agent.Alike .extensions a b) :
    Option.Rel (AlikeFound .extensions) (m.searchExtension? a) (m.searchExtension? b) := by
  obtain ⟨hquery, halike⟩ := h
  unfold searchExtension?
  rw [hquery]
  rcases SearchState.nextExtension?_alike halike with heq | ⟨hdone, hdone'⟩
  · show Option.Rel _ ((a.searchState.nextExtension? m a.query).map _)
      ((b.searchState.nextExtension? m a.query).map _)
    rw [heq]
    cases a.searchState.nextExtension? m a.query with
    | none => exact .none
    | some next =>
      obtain ⟨st, found⟩ := next
      cases found with
      | none => exact .some ⟨rfl, ⟨hquery, Or.inl rfl⟩, nofun⟩
      | some id => exact .some ⟨rfl, ⟨hquery, Or.inl rfl⟩, fun _ => ⟨rfl, rfl⟩⟩
  · show Option.Rel _ ((a.searchState.nextExtension? m a.query).map _)
      ((b.searchState.nextExtension? m a.query).map _)
    rw [hdone, hdone']
    exact .some ⟨rfl, ⟨hquery, halike⟩, nofun⟩

theorem searchNext?_alike : ∀ {kind : Kind}, Agent.Alike kind a b →
    Option.Rel (AlikeFound kind) (m.searchNext? kind a) (m.searchNext? kind b)
  | .prefixes, h => searchPrefix?_alike h
  | .extensions, h => searchExtension?_alike h

end Moves

/-- Agents that are alike for a search are delivered the same. -/
theorem Dictionary.delivers_of_alike {d : Dictionary} {kind : Kind} {a b : Agent}
    {hits : List (List UInt8 × Nat)} (hab : Agent.Alike kind a b)
    (h : Delivers (d.searchNext kind) a hits) : Delivers (d.searchNext kind) b hits := by
  refine h.of_alike ?_ hab
  intro a b hab
  rw [searchNext_eq, searchNext_eq]
  unfold search
  cases d.cascade with
  | none => exact ⟨rfl, hab, nofun⟩
  | some c =>
    have hrel := Moves.searchNext?_alike (m := c.moves) hab
    dsimp only
    generalize c.moves.searchNext? kind a = found at hrel ⊢
    generalize c.moves.searchNext? kind b = found' at hrel ⊢
    cases hrel with
    | none => exact ⟨rfl, hab, nofun⟩
    | some hfound =>
      refine ⟨congrArg Except.ok hfound.outcome, hfound.alike, ?_⟩
      intro hhit
      exact hfound.key (Except.ok.inj hhit)

/-! ## What a search keeps -/

namespace SearchState

variable {m : Moves} {query : List UInt8} {st : SearchState}

theorem goes_advancePrefix? {node length : Nat} {next : SearchState × Option (Nat × Nat)}
    (h : st.advancePrefix? m query node length = some next) :
    Kind.prefixes.goes next.1.progress = true := by
  obtain ⟨hit, _, rfl⟩ := Option.map_eq_some_iff.mp h
  cases hit <;> rfl

theorem goes_startPrefix? {next : SearchState × Option (Nat × Nat)}
    (h : st.startPrefix? m query = some next) : Kind.prefixes.goes next.1.progress = true := by
  unfold startPrefix? at h
  cases hflag : m.keyAt? 0 with
  | none => rw [hflag] at h; cases h
  | some flag =>
    rw [hflag] at h
    cases flag with
    | none => exact goes_advancePrefix? h
    | some id => cases h; rfl

theorem goes_nextPrefix? {next : SearchState × Option (Nat × Nat)}
    (h : st.nextPrefix? m query = some next) : Kind.prefixes.goes next.1.progress = true := by
  unfold nextPrefix? at h
  cases hprogress : st.progress with
  | prefixes node length =>
    rw [hprogress] at h
    exact goes_advancePrefix? h
  | prefixesDone =>
    rw [hprogress] at h
    cases h
    rw [hprogress]
    rfl
  | fresh | extensions | extensionsDone =>
    rw [hprogress] at h
    exact goes_startPrefix? h

theorem goes_map_report {event : Option Tour.Event} {next : SearchState × Option Nat}
    (h : event.map report = some next) : Kind.extensions.goes next.1.progress = true := by
  obtain ⟨event, _, rfl⟩ := Option.map_eq_some_iff.mp h
  cases event <;> rfl

theorem goes_startExtension? {next : SearchState × Option Nat}
    (h : startExtension? m query = some next) : Kind.extensions.goes next.1.progress = true := by
  unfold startExtension? at h
  cases hlocate : m.locate? query with
  | none => rw [hlocate] at h; cases h
  | some place =>
    rw [hlocate] at h
    cases place with
    | found node bytes => exact goes_map_report h
    | lost bytes => cases h; rfl

theorem goes_nextExtension? {next : SearchState × Option Nat}
    (h : st.nextExtension? m query = some next) :
    Kind.extensions.goes next.1.progress = true := by
  unfold nextExtension? at h
  cases hprogress : st.progress with
  | extensions tour =>
    rw [hprogress] at h
    exact goes_map_report h
  | extensionsDone =>
    rw [hprogress] at h
    cases h
    rw [hprogress]
    rfl
  | fresh | prefixes | prefixesDone =>
    rw [hprogress] at h
    exact goes_startExtension? h

end SearchState

/-- A search leaves the query and the id alone and can be gone on with. -/
structure Kept (kind : Kind) (a a' : Agent) : Prop where
  query : a'.query = a.query
  queryId : a'.queryId = a.queryId
  hasState : a'.hasState = true
  goes : kind.goes a'.searchState.progress = true

/-- What is gone on with is kept in a search state. -/
theorem Agent.hasState_of_goes {a : Agent} {kind : Kind}
    (h : kind.goes a.searchState.progress = true) : a.hasState = true := by
  unfold hasState
  cases hstate : a.state with
  | some state => rfl
  | none =>
    rw [searchState, hstate] at h
    cases kind <;> cases h

theorem Agent.kept_after {a : Agent} {kind : Kind} {state : SearchState}
    (h : kind.goes state.progress = true) (answer : Option Answer) :
    Kept kind a (a.after state answer).1 := by
  cases answer <;> exact ⟨rfl, rfl, rfl, h⟩

namespace Moves

variable {m : Moves} {a : Agent} {found : Agent × Bool}

theorem kept_searchNext? {kind : Kind} (h : m.searchNext? kind a = some found) :
    Kept kind a found.1 := by
  cases kind with
  | prefixes =>
    obtain ⟨next, hnext, rfl⟩ := Option.map_eq_some_iff.mp h
    exact Agent.kept_after (SearchState.goes_nextPrefix? hnext) _
  | extensions =>
    obtain ⟨next, hnext, rfl⟩ := Option.map_eq_some_iff.mp h
    exact Agent.kept_after (SearchState.goes_nextExtension? hnext) _

end Moves

/-- A search that does not fail keeps what the levels keep. -/
theorem Dictionary.kept_searchNext {d : Dictionary} {kind : Kind} {a a' : Agent} {hit : Bool}
    (h : d.searchNext kind a = (a', .ok hit)) : Kept kind a a' := by
  rw [searchNext_eq, search] at h
  cases hd : d.cascade with
  | none => rw [hd] at h; cases h
  | some c =>
    rw [hd] at h
    dsimp only at h
    cases hfound : c.moves.searchNext? kind a with
    | none => rw [hfound] at h; cases h
    | some found =>
      rw [hfound] at h
      cases h
      exact Moves.kept_searchNext? hfound

end Lexicon
