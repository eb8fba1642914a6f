/-
Lexicon.Proofs.Search.Standing — where a search stands in the tree of the keys.

A search that is suspended stands in the tree (`Progress.Stands`): at the node that the
front of the query spells, or with a tour that is ready. From there each search comes to
one answer for all moves that follow the tree, and what it leaves stands in the tree again
(`SearchState.nextPrefix?_spec`, `SearchState.nextExtension?_spec`; the other two searches
suspend nothing).
-/
import Lexicon.Proofs.Cascade.Touring
import Lexicon.Proofs.Search.Delivery

namespace Lexicon

/-- A search of a query that is suspended so stands in the tree of a shape. -/
def Progress.Stands (s : Shape) (query : List UInt8) : Progress → Prop
  | .prefixes node length => s.Spells node (query.take length)
  | .extensions tour => ∃ root left, root < s.nodes.length ∧ tour.Ready s root left
  | .fresh | .prefixesDone | .extensionsDone => True

theorem Progress.stands_of_fresh {s : Shape} {query : List UInt8} {progress : Progress}
    (h : progress = .fresh) : progress.Stands s query := by
  rw [h]
  trivial

/-- From the id of a key its bytes are spelled. -/
theorem Moves.keyOf?_of_keyed {m : Moves} {s : Shape} (h : m.Follow s) {word : List UInt8} {id : Nat}
    (hid : s.Keyed word id) : m.keyOf? id = some word := by
  obtain ⟨v, hv, hat⟩ := hid
  rw [keyOf?, h.nodeOf? hat, Option.bind_eq_bind, Option.bind_some, spell?_of_spells h hv]

namespace SearchState

variable {s : Shape} {query : List UInt8}

/-! ## The query, and an id -/

/-- The exact search finds the id of a query that is a key, and no id for another query. -/
theorem lookup?_spec (hsound : s.Sound) (query : List UInt8) :
    ∃ found, (∀ {m : Moves} (st : SearchState), m.Follow s →
        st.lookup? m query = some (st.reset, found))
      ∧ ∀ id, found = some id ↔ s.Keyed query id := by
  obtain ⟨found, hfound, hiff⟩ : ∃ found,
      (∀ {m : Moves}, m.Follow s → m.lookupFrom? 0 query = some found)
      ∧ ∀ id, found = some id ↔ s.Keyed query id := Moves.lookupFrom?_spec hsound .root
  refine ⟨found, fun st hm => ?_, hiff⟩
  rw [lookup?, Moves.lookup?, hfound hm]
  rfl

theorem restore?_of_keyed {m : Moves} (h : m.Follow s) {word : List UInt8} {id : Nat}
    (hid : s.Keyed word id) (st : SearchState) : st.restore? m id = some { buffer := word } := by
  rw [restore?, Moves.keyOf?_of_keyed h hid]
  rfl

/-! ## Prefixes of the query -/

/-- Where the next prefix is found the search stands, and it is no longer than the query. -/
theorem stands_reportPrefix {length : Nat} {hit : Option Moves.PrefixHit} (st : SearchState)
    (h : Moves.NextPrefix s (query.take length) (query.drop length) length hit) :
    (st.reportPrefix hit).1.progress.Stands s query
      ∧ ∀ found ∈ (st.reportPrefix hit).2, found.2 ≤ query.length := by
  cases h with
  | @hit x id p hp hne hx hid hbetween =>
    obtain ⟨more, hmore⟩ := hp
    constructor
    · show s.Spells x (query.take (length + p.length))
      rw [List.take_add, ← hmore, List.take_left]
      exact hx
    · rintro found ⟨⟩
      have hpos := List.length_pos_iff.mpr hne
      have hlength := congrArg List.length hmore
      rw [List.length_append, List.length_drop] at hlength
      show length + p.length ≤ query.length
      omega
  | done _ => exact ⟨trivial, nofun⟩

/-- From a node that spells the front of the query the search goes on to the next key behind it. -/
theorem advancePrefix?_spec (hsound : s.Sound) {node length : Nat}
    (hnode : s.Spells node (query.take length)) :
    ∃ hit, (∀ {m : Moves} (st : SearchState), m.Follow s →
        st.advancePrefix? m query node length = some (st.reportPrefix hit))
      ∧ Moves.NextPrefix s (query.take length) (query.drop length) length hit := by
  obtain ⟨hit, hhit, hnext⟩ : ∃ hit,
      (∀ {m : Moves}, m.Follow s → m.nextPrefix? node length (query.drop length) = some hit)
      ∧ Moves.NextPrefix s (query.take length) (query.drop length) length hit :=
    Moves.nextPrefix?_spec hsound hnode
  refine ⟨hit, fun st hm => ?_, hnext⟩
  rw [advancePrefix?, hhit hm]
  rfl

theorem startPrefix?_of_key {m : Moves} (h : m.Follow s) {id : Nat} (hroot : s.keyAt 0 = some id)
    (st : SearchState) : st.startPrefix? m query = some (st.reportPrefix (some ⟨0, 0, id⟩)) := by
  rw [startPrefix?, h.keyAt? h.sound.length_pos, hroot]
  rfl

theorem startPrefix?_of_none {m : Moves} (h : m.Follow s) (hroot : s.keyAt 0 = none)
    (st : SearchState) : st.startPrefix? m query = st.advancePrefix? m query 0 0 := by
  rw [startPrefix?, h.keyAt? h.sound.length_pos, hroot]
  rfl

theorem startPrefix?_spec (hsound : s.Sound) (query : List UInt8) (st : SearchState) :
    ∃ state found, (∀ {m : Moves}, m.Follow s → st.startPrefix? m query = some (state, found))
      ∧ state.progress.Stands s query ∧ ∀ hit ∈ found, hit.2 ≤ query.length := by
  cases hroot : s.keyAt 0 with
  | some id =>
    refine ⟨_, _, fun hm => startPrefix?_of_key hm hroot st, .root, ?_⟩
    rintro hit ⟨⟩
    exact Nat.zero_le _
  | none =>
    obtain ⟨hit, hadvance, hnext⟩ : ∃ hit, (∀ {m : Moves} (st : SearchState), m.Follow s →
        st.advancePrefix? m query 0 0 = some (st.reportPrefix hit))
        ∧ Moves.NextPrefix s (query.take 0) (query.drop 0) 0 hit := advancePrefix?_spec hsound .root
    exact ⟨_, _, fun hm => (startPrefix?_of_none hm hroot st).trans (hadvance st hm),
      stands_reportPrefix st hnext⟩

theorem nextPrefix?_spec (hsound : s.Sound) {st : SearchState} (h : st.progress.Stands s query) :
    ∃ state found, (∀ {m : Moves}, m.Follow s → st.nextPrefix? m query = some (state, found))
      ∧ state.progress.Stands s query ∧ ∀ hit ∈ found, hit.2 ≤ query.length := by
  unfold nextPrefix?
  cases hprogress : st.progress with
  | prefixes node length =>
    rw [hprogress] at h
    obtain ⟨hit, hadvance, hnext⟩ := advancePrefix?_spec hsound h
    exact ⟨_, _, hadvance st, stands_reportPrefix st hnext⟩
  | prefixesDone => exact ⟨st, none, fun _ => rfl, h, nofun⟩
  | fresh | extensions | extensionsDone => exact startPrefix?_spec hsound query st

/-! ## Extensions of the query -/

/-- A tour stands where it reported a key. -/
theorem stands_report {root : Nat} {left : List Nat} {event : Tour.Event}
    (hroot : root < s.nodes.length) (hreaches : Tour.Reaches s root left event) :
    (report event).1.progress.Stands s query := by
  cases hreaches with
  | key _ _ _ hready => exact ⟨root, _, hroot, hready⟩
  | finished _ => trivial

theorem startExtension?_of_found {m : Moves} {node : Nat} {bytes : List UInt8} {event : Tour.Event}
    (hlocate : m.locate? query = some (.found node bytes))
    (hbegin : m.beginTour? node bytes = some event) :
    startExtension? m query = some (report event) := by
  simp [startExtension?, hlocate, hbegin]

theorem startExtension?_of_lost {m : Moves} {bytes : List UInt8}
    (hlocate : m.locate? query = some (.lost bytes)) :
    startExtension? m query = some ({ progress := .extensionsDone, buffer := bytes }, none) := by
  simp [startExtension?, hlocate]

theorem locate?_spec (hsound : s.Sound) (query : List UInt8) :
    ∃ place, (∀ {m : Moves}, m.Follow s → m.locate? query = some place)
      ∧ Moves.Located s query place :=
  Moves.locateFrom?_spec hsound .root

theorem startExtension?_spec (hsound : s.Sound) (query : List UInt8) :
    ∃ state found, (∀ {m : Moves}, m.Follow s → startExtension? m query = some (state, found))
      ∧ state.progress.Stands s query := by
  obtain ⟨place, hlocate, hlocated⟩ := locate?_spec hsound query
  cases hlocated with
  | found hv _ =>
    obtain ⟨event, hbegin, hreaches⟩ := Moves.beginTour?_spec hsound hv
    exact ⟨_, _, fun hm => startExtension?_of_found (hlocate hm) (hbegin hm),
      stands_report (hsound.lt_length_of_spells hv) hreaches⟩
  | lost _ => exact ⟨_, _, fun hm => startExtension?_of_lost (hlocate hm), trivial⟩

theorem nextExtension?_of_suspended {m : Moves} {st : SearchState} {tour : Tour}
    {event : Tour.Event} (h : st.progress = .extensions tour) (hresume : m.resume? tour = some event) :
    st.nextExtension? m query = some (report event) := by
  simp [nextExtension?, h, hresume]

theorem nextExtension?_spec (hsound : s.Sound) {st : SearchState}
    (h : st.progress.Stands s query) :
    ∃ state found, (∀ {m : Moves}, m.Follow s → st.nextExtension? m query = some (state, found))
      ∧ state.progress.Stands s query := by
  cases hprogress : st.progress with
  | extensions tour =>
    rw [hprogress] at h
    obtain ⟨root, left, hroot, hready⟩ := h
    obtain ⟨event, hresume, hreaches⟩ := Moves.resume?_spec hsound hroot hready
    exact ⟨_, _, fun hm => nextExtension?_of_suspended hprogress (hresume hm),
      stands_report hroot hreaches⟩
  | extensionsDone =>
    refine ⟨st, none, fun _ => ?_, h⟩
    rw [nextExtension?, hprogress]
  | fresh | prefixes | prefixesDone =>
    unfold nextExtension?
    rw [hprogress]
    exact startExtension?_spec hsound query

end SearchState

/-- The search that an agent has suspended stands in the tree of a shape. -/
def Agent.Stands (a : Agent) (s : Shape) : Prop :=
  a.searchState.progress.Stands s a.query

theorem Agent.stands_of_fresh {a : Agent} {s : Shape} (h : a.searchState.progress = .fresh) :
    a.Stands s :=
  Progress.stands_of_fresh h

end Lexicon
