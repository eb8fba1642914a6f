/-
Lexicon.Proofs.Search.Cursor — an agent is a place in two lists.

A `Cursor` is what remains of an agent when all that the searches keep is left out: the
query, the id to look up, the last key, and how much of which list was delivered. The
lists are the keys that are prefixes of the query and whatever the search for extensions
gives to a new agent. `Cursor.serve` is written from these two lists and the ids alone.
`Cursor.Tracks` relates a cursor to an agent by what the suspended search is still to
deliver; each request keeps it (`follows_serve`), so an agent that keeps the suspended search
alone replies to any row of requests as the cursor does. An agent with the record that all
searches share replies the same (`Dictionary.replies_eq`).
-/
import Lexicon.Proofs.Search.Requests
import Lexicon.Proofs.Search.Resumption
import Lexicon.Proofs.Search.State
import Mathlib.Data.List.Infix
import Mathlib.Data.List.Sort

namespace Lexicon

/-! ## The keys of a keyset with their ids -/

namespace Keyset

/-- The id of a key. -/
def idOf? (ks : Keyset) (key : List UInt8) : Option Nat :=
  (ks.entries.toList.find? (·.bytes == key)).map (·.id)

/-- The key that has an id. -/
def keyOf? (ks : Keyset) (id : Nat) : Option (List UInt8) :=
  (ks.entries.toList.find? (·.id == id)).map (·.bytes)

/-- The keys that are prefixes of a query, the shortest first, with their ids. -/
def prefixesOf (ks : Keyset) (query : List UInt8) : List (List UInt8 × Nat) :=
  query.inits.filterMap fun front => (ks.idOf? front).map (front, ·)

end Keyset

/-! ## The machine -/

/-- How far a cursor is. -/
inductive Mode
  | fresh
  /-- In the list of a search, where the next element to deliver has the given number. -/
  | going (kind : Kind) (number : Nat)
  /-- At the end of the list of a search. -/
  | done (kind : Kind)
  deriving DecidableEq, Repr

/-- A query with its last key and how far the search is. -/
structure Cursor where
  query : List UInt8 := []
  queryId : Nat := 0
  key : List UInt8 × Nat := ([], 0)
  mode : Mode := .fresh
  /-- Whether there is a search state. -/
  hasState : Bool := false
  deriving DecidableEq, Repr

/-- The keys that a search of some kind delivers for a query, with their ids. -/
def Keyset.hitsOf (ks : Keyset) (extensions : List UInt8 → List (List UInt8 × Nat)) :
    Kind → List UInt8 → List (List UInt8 × Nat)
  | .prefixes => ks.prefixesOf
  | .extensions => extensions

namespace Cursor

/-- Delivers the element of a list that has the given number, or says that there is none. -/
def advance (m : Cursor) (kind : Kind) (hits : List (List UInt8 × Nat)) (number : Nat) :
    Cursor × Except Fault Bool :=
  match hits[number]? with
  | some hit =>
    ({ m with key := hit, mode := .going kind (number + 1), hasState := true }, .ok true)
  | none => ({ m with mode := .done kind, hasState := true }, .ok false)

/-- Delivers the next element of the list of a search: from where the search is, or from the start
if another search or none is under way. -/
def next (m : Cursor) (kind : Kind) (hits : List (List UInt8 × Nat)) :
    Cursor × Except Fault Bool :=
  match m.mode with
  | .fresh => m.advance kind hits 0
  | .going other number => m.advance kind hits (if other = kind then number else 0)
  | .done other => if other = kind then (m, .ok false) else m.advance kind hits 0

/-- The cursor after a request, given the keys and the extensions of each query. -/
def serve (ks : Keyset) (extensions : List UInt8 → List (List UInt8 × Nat)) (m : Cursor) :
    Request → Cursor × Except Fault Bool
  | .setQuery query => ({ m with query, key := ([], 0), mode := .fresh }, .ok true)
  | .setQueryId queryId => ({ m with queryId, key := ([], 0), mode := .fresh }, .ok true)
  | .initState =>
    if m.hasState then (m, .error .alreadyInitialized) else ({ m with hasState := true }, .ok true)
  | .clear => ({}, .ok true)
  | .lookup =>
    match ks.idOf? m.query with
    | some id => ({ m with key := (m.query, id), mode := .fresh, hasState := true }, .ok true)
    | none => ({ m with mode := .fresh, hasState := true }, .ok false)
  | .reverseLookup =>
    match ks.keyOf? m.queryId with
    | some key => ({ m with key := (key, m.queryId), mode := .fresh, hasState := true }, .ok true)
    | none => ({ m with hasState := true }, .error (.unknownId m.queryId ks.keys.toFinset.card))
  | .prefixSearch => m.next .prefixes (ks.hitsOf extensions .prefixes m.query)
  | .extensionSearch => m.next .extensions (ks.hitsOf extensions .extensions m.query)

end Cursor

/-- The replies of a cursor. -/
def Cursor.replies (ks : Keyset) (extensions : List UInt8 → List (List UInt8 × Nat)) :
    Cursor → List Request → List (Except Fault (Option (List UInt8 × Nat)))
  | _, [] => []
  | m, r :: rest =>
    let (m', outcome) := m.serve ks extensions r
    replyOf outcome m'.key :: replies ks extensions m' rest

/-! ## The ids are those of the tree -/

namespace Indexes

variable {c : Cascade} {s : Shape} {ks : Keyset}

theorem idOf?_eq_some_iff (h : Indexes c s ks) {key : List UInt8} {id : Nat} :
    ks.idOf? key = some id ↔ s.Keyed key id := by
  unfold Keyset.idOf?
  rw [h.keyed_iff, Option.map_eq_some_iff]
  constructor
  · rintro ⟨entry, hfind, hid⟩
    exact ⟨entry, List.mem_of_find?_eq_some hfind, by simpa using List.find?_some hfind, hid⟩
  · rintro ⟨entry, hentry, hbytes, hid⟩
    have hsome : (ks.entries.toList.find? (·.bytes == key)).isSome :=
      List.find?_isSome.mpr ⟨entry, hentry, by simpa using hbytes⟩
    obtain ⟨found, hfind⟩ := Option.isSome_iff_exists.mp hsome
    have hfound : found.bytes = key := by simpa using List.find?_some hfind
    refine ⟨found, hfind, ?_⟩
    rw [← hid, h.id_eq_iff (List.mem_of_find?_eq_some hfind) hentry, hfound, hbytes]

theorem keyOf?_eq_some_iff (h : Indexes c s ks) {key : List UInt8} {id : Nat} :
    ks.keyOf? id = some key ↔ s.Keyed key id := by
  unfold Keyset.keyOf?
  rw [h.keyed_iff, Option.map_eq_some_iff]
  constructor
  · rintro ⟨entry, hfind, hbytes⟩
    exact ⟨entry, List.mem_of_find?_eq_some hfind, hbytes, by simpa using List.find?_some hfind⟩
  · rintro ⟨entry, hentry, hbytes, hid⟩
    have hsome : (ks.entries.toList.find? (·.id == id)).isSome :=
      List.find?_isSome.mpr ⟨entry, hentry, by simpa using hid⟩
    obtain ⟨found, hfind⟩ := Option.isSome_iff_exists.mp hsome
    have hfound : found.id = id := by simpa using List.find?_some hfind
    refine ⟨found, hfind, ?_⟩
    rw [← hbytes, ← h.id_eq_iff (List.mem_of_find?_eq_some hfind) hentry, hfound, hid]

theorem mem_prefixesOf (h : Indexes c s ks) {query word : List UInt8} {id : Nat} :
    (word, id) ∈ ks.prefixesOf query ↔ word <+: query ∧ s.Keyed word id := by
  unfold Keyset.prefixesOf
  rw [List.mem_filterMap]
  constructor
  · rintro ⟨front, hfront, hmap⟩
    obtain ⟨id', hid', heq⟩ := Option.map_eq_some_iff.mp hmap
    obtain ⟨rfl, rfl⟩ := Prod.mk.inj heq
    exact ⟨(List.mem_inits _ _).mp hfront, h.idOf?_eq_some_iff.mp hid'⟩
  · rintro ⟨hfront, hkeyed⟩
    exact ⟨word, (List.mem_inits _ _).mpr hfront, by rw [h.idOf?_eq_some_iff.mpr hkeyed]; rfl⟩

end Indexes

/-- The fronts of a list come by length. -/
theorem inits_pairwise_length {α : Type} : ∀ l : List α,
    l.inits.Pairwise fun front front' => front.length < front'.length
  | [] => List.pairwise_singleton _ _
  | a :: l => by
      rw [List.inits_cons, List.pairwise_cons, List.pairwise_map]
      refine ⟨?_, (inits_pairwise_length l).imp fun h => Nat.succ_lt_succ h⟩
      intro front hfront
      obtain ⟨front', _, rfl⟩ := List.mem_map.mp hfront
      exact Nat.succ_pos _

theorem Keyset.prefixesOf_ascending (ks : Keyset) (query : List UInt8) :
    (ks.prefixesOf query).Pairwise fun hit hit' => hit.1.length < hit'.1.length := by
  unfold prefixesOf
  refine List.Pairwise.filterMap _ ?_ (inits_pairwise_length query)
  intro front front' hlt hit hhit hit' hhit'
  obtain ⟨_, _, rfl⟩ := Option.map_eq_some_iff.mp hhit
  obtain ⟨_, _, rfl⟩ := Option.map_eq_some_iff.mp hhit'
  exact hlt

/-- Two lists of keys of different lengths, the shortest first, are equal if they have the same
keys. -/
theorem eq_of_ascending {hits hits' : List (List UInt8 × Nat)}
    (h : hits.Pairwise fun hit hit' => hit.1.length < hit'.1.length)
    (h' : hits'.Pairwise fun hit hit' => hit.1.length < hit'.1.length)
    (hmem : ∀ hit, hit ∈ hits ↔ hit ∈ hits') : hits = hits' := by
  have hne : ∀ {hit hit' : List UInt8 × Nat}, hit.1.length < hit'.1.length → hit ≠ hit' := by
    rintro hit _ hlt rfl
    exact Nat.lt_irrefl _ hlt
  have hperm := (List.perm_ext_iff_of_nodup (h.imp hne) (h'.imp hne)).mpr hmem
  exact hperm.eq_of_pairwise (fun _ _ _ _ hlt hgt => absurd hlt (Nat.lt_asymm hgt)) h h'

/-! ## Cursors follow agents -/

/-- A search that is still to deliver what a mode says, the lists being those of the given kinds and
queries. -/
def Mode.Tracks (d : Dictionary) (hitsOf : Kind → List UInt8 → List (List UInt8 × Nat)) (a : Agent) :
    Mode → Prop
  | .fresh => a.searchState.progress = .fresh
  | .going kind number => kind.goes a.searchState.progress = true
      ∧ Delivers (d.searchNext kind) a ((hitsOf kind a.query).drop number)
  | .done kind => kind.goes a.searchState.progress = true ∧ Delivers (d.searchNext kind) a []

/-- What is still to be delivered does not depend on the answer, the id or the buffer. -/
theorem Mode.Tracks.of_progress {d : Dictionary}
    {hitsOf : Kind → List UInt8 → List (List UInt8 × Nat)} {a b : Agent} {mode : Mode}
    (h : mode.Tracks d hitsOf a) (hquery : b.query = a.query)
    (hprogress : b.searchState.progress = a.searchState.progress) : mode.Tracks d hitsOf b := by
  cases mode with
  | fresh => exact hprogress.trans h
  | going kind number =>
    refine ⟨by rw [hprogress]; exact h.1, ?_⟩
    rw [hquery]
    exact Dictionary.delivers_of_alike ⟨hquery, Or.inl hprogress⟩ h.2
  | done kind =>
    refine ⟨by rw [hprogress]; exact h.1, ?_⟩
    exact Dictionary.delivers_of_alike ⟨hquery, Or.inl hprogress⟩ h.2

namespace Cursor

/-- A cursor stands for an agent: it has its query and its id, and its mode says what is still to be
delivered. -/
structure Tracks (d : Dictionary) (hitsOf : Kind → List UInt8 → List (List UInt8 × Nat))
    (m : Cursor) (a : Agent) : Prop where
  query : a.query = m.query
  queryId : a.queryId = m.queryId
  hasState : a.hasState = m.hasState
  mode : m.mode.Tracks d hitsOf a
  /-- Without a search state there is no key. -/
  unused : m.hasState = false → m.key = ([], 0) ∧ a.answer = .nothing

/-- A request is served alike: with one outcome, a key that is seen is one key, and the cursor
stands for the agent again. -/
structure Follows (d : Dictionary) (hitsOf : Kind → List UInt8 → List (List UInt8 × Nat))
    (moved : Cursor × Except Fault Bool) (served : Agent × Except Fault Bool) : Prop where
  outcome : served.2 = moved.2
  key : served.2 = .ok true → (served.1.key, served.1.keyId) = moved.1.key
  tracks : moved.1.Tracks d hitsOf served.1

variable {d : Dictionary} {hitsOf : Kind → List UInt8 → List (List UInt8 × Nat)} {m : Cursor}
  {a : Agent}

/-- An agent that is to be delivered the rest of a list is delivered its next element, or told that
there is none, as the cursor is. -/
theorem follows_advance (h : m.Tracks d hitsOf a) {kind : Kind} {number : Nat}
    (hdelivers : Delivers (d.searchNext kind) a ((hitsOf kind m.query).drop number)) :
    Follows d hitsOf (m.advance kind (hitsOf kind m.query) number) (d.searchNext kind a) := by
  unfold advance
  cases hget : (hitsOf kind m.query)[number]? with
  | none =>
    rw [List.drop_eq_nil_of_le (List.getElem?_eq_none_iff.mp hget)] at hdelivers
    have hno : d.searchNext kind a = ((d.searchNext kind a).1, .ok false) :=
      Prod.ext rfl (hdelivers 0)
    have hkept := Dictionary.kept_searchNext hno
    refine ⟨hdelivers 0, ?_, ?_⟩
    · rw [hno]
      nofun
    · exact ⟨hkept.query.trans h.query, hkept.queryId.trans h.queryId, hkept.hasState,
        ⟨hkept.goes, hdelivers.nil_step⟩, nofun⟩
  | some hit =>
    obtain ⟨hlt, hat⟩ := List.getElem?_eq_some_iff.mp hget
    rw [List.drop_eq_getElem_cons hlt, hat] at hdelivers
    obtain ⟨a', hsearch, hkey, hid, hrest⟩ := hdelivers
    have hkept := Dictionary.kept_searchNext hsearch
    have hquery := hkept.query.trans h.query
    rw [hsearch]
    rw [← hquery] at hrest
    refine ⟨rfl, fun _ => Prod.ext hkey hid, ?_⟩
    exact ⟨hquery, hkept.queryId.trans h.queryId, hkept.hasState, ⟨hkept.goes, hrest⟩, nofun⟩

/-- An agent that has been delivered everything stays so, as the cursor does. -/
theorem follows_done (h : m.Tracks d hitsOf a) {kind : Kind} (hmode : m.mode = .done kind) :
    Follows d hitsOf (m, .ok false) (d.searchNext kind a) := by
  have hdone := h.mode
  rw [hmode] at hdone
  obtain ⟨hgoes, hdelivers⟩ := hdone
  have hno : d.searchNext kind a = ((d.searchNext kind a).1, .ok false) :=
    Prod.ext rfl (hdelivers 0)
  have hkept := Dictionary.kept_searchNext hno
  have hstate := h.hasState.symm.trans (Agent.hasState_of_goes hgoes)
  refine ⟨hdelivers 0, ?_, hkept.query.trans h.query, hkept.queryId.trans h.queryId,
    hkept.hasState.trans hstate.symm, ?_, ?_⟩
  · rw [hno]
    nofun
  · rw [hmode]
    exact ⟨hkept.goes, hdelivers.nil_step⟩
  · rw [hstate]
    nofun

/-- The next key of a search is the next one in its list. -/
theorem follows_next (h : m.Tracks d hitsOf a) (kind : Kind)
    (hlist : ∀ query, Delivers (d.searchNext kind) (({} : Agent).setQuery query)
      (hitsOf kind query)) :
    Follows d hitsOf (m.next kind (hitsOf kind m.query)) (d.searchNext kind a) := by
  have hrestart : kind.goes a.searchState.progress = false →
      Follows d hitsOf (m.advance kind (hitsOf kind m.query) 0) (d.searchNext kind a) := by
    intro hstart
    refine follows_advance h ?_
    refine Dictionary.delivers_of_alike ⟨h.query, Or.inr ⟨?_, hstart⟩⟩ (hlist m.query)
    rw [Agent.searchState_setQuery]
    cases kind <;> rfl
  have hmode := h.mode
  unfold next
  cases hm : m.mode with
  | fresh =>
    rw [hm] at hmode
    apply hrestart
    rw [show a.searchState.progress = .fresh from hmode]
    cases kind <;> rfl
  | going other number =>
    rw [hm] at hmode
    obtain ⟨hgoes, hleft⟩ := hmode
    dsimp only
    split
    · rename_i heq
      subst heq
      rw [h.query] at hleft
      exact follows_advance h hleft
    · rename_i hne
      exact hrestart (Kind.goes_eq_false hgoes hne)
  | done other =>
    rw [hm] at hmode
    dsimp only
    split
    · rename_i heq
      subst heq
      exact follows_done h hm
    · rename_i hne
      exact hrestart (Kind.goes_eq_false hmode.1 hne)

variable {c : Cascade} {s : Shape} {ks : Keyset}
  {extensions : List UInt8 → List (List UInt8 × Nat)}

theorem follows_lookup (hindexes : Indexes c s ks) (h : m.Tracks d hitsOf a) :
    Follows d hitsOf (m.serve ks extensions .lookup) (Dictionary.lookup ⟨some c⟩ a) := by
  obtain ⟨answer, hanswer, hiff⟩ := hindexes.lookup?_eq a.query
  have hid : ks.idOf? m.query = answer := by
    apply Option.ext
    intro id
    rw [hiff, ← h.query, hindexes.idOf?_eq_some_iff]
  unfold serve
  rw [hid, Dictionary.lookup_of_answer hanswer]
  cases answer with
  | some id =>
    refine ⟨rfl, fun _ => ?_, h.query, h.queryId, rfl, rfl, nofun⟩
    exact Prod.ext ((a.key_after_front _ id).trans h.query) rfl
  | none => exact ⟨rfl, nofun, h.query, h.queryId, rfl, rfl, nofun⟩

theorem follows_reverseLookup (hindexes : Indexes c s ks) (h : m.Tracks d hitsOf a) :
    Follows d hitsOf (m.serve ks extensions .reverseLookup)
      (Dictionary.serve ⟨some c⟩ a .reverseLookup) := by
  unfold serve Dictionary.serve
  dsimp only
  cases hkey : ks.keyOf? m.queryId with
  | some key =>
    rw [← h.queryId] at hkey
    have hkeyed := hindexes.keyOf?_eq_some_iff.mp hkey
    rw [Dictionary.reverseLookup_of_keyed hindexes.tells hkeyed]
    exact ⟨rfl, fun _ => Prod.ext rfl h.queryId, h.query, h.queryId, rfl, rfl, nofun⟩
  | none =>
    have hle : c.numKeys ≤ a.queryId := by
      apply Nat.le_of_not_lt
      intro hlt
      obtain ⟨key, hkeyed⟩ := (Cascade.exists_keyed_iff hindexes.tells).mpr hlt
      rw [← h.queryId, hindexes.keyOf?_eq_some_iff.mpr hkeyed] at hkey
      cases hkey
    rw [hindexes.card_keys, Dictionary.reverseLookup_unknown hle, ← h.queryId]
    exact ⟨rfl, nofun, h.query, rfl, rfl, h.mode.of_progress rfl rfl, nofun⟩

theorem follows_initState (h : m.Tracks d hitsOf a) :
    Follows d hitsOf (m.serve ks extensions .initState) (d.serve a .initState) := by
  have hstate := h.hasState
  unfold serve Dictionary.serve Agent.initState
  cases hm : m.hasState with
  | true =>
    rw [hm] at hstate
    rw [if_pos rfl, if_pos hstate]
    refine ⟨rfl, ?_, h⟩
    intro hhit
    cases hhit
  | false =>
    rw [hm] at hstate
    obtain ⟨hkey, hanswer⟩ := h.unused hm
    have hnone : a.state = none := by simpa [Agent.hasState] using hstate
    have hprogress : ({} : SearchState).progress = a.searchState.progress := by
      rw [Agent.searchState, hnone]
      rfl
    rw [if_neg (by decide), if_neg (by rw [hstate]; decide)]
    refine ⟨rfl, fun _ => ?_, h.query, h.queryId, rfl, h.mode.of_progress rfl hprogress, ?_⟩
    · simp [Agent.key, Agent.keyId, hanswer, hkey, Answer.id]
    · intro hused
      cases hused

theorem hasState_reset (a : Agent) : a.reset.hasState = a.hasState := by
  unfold Agent.reset Agent.hasState
  cases a.state <;> rfl

/-- Every request is served to the agent as to the cursor. -/
theorem follows_serve (hindexes : Indexes c s ks)
    (hlist : ∀ kind query, Delivers (Dictionary.searchNext ⟨some c⟩ kind)
      (({} : Agent).setQuery query) (ks.hitsOf extensions kind query))
    (h : m.Tracks ⟨some c⟩ (ks.hitsOf extensions) a) (r : Request) :
    Follows ⟨some c⟩ (ks.hitsOf extensions) (m.serve ks extensions r)
      (Dictionary.serve ⟨some c⟩ a r) := by
  cases r with
  | setQuery query =>
    exact ⟨rfl, fun _ => rfl, rfl, h.queryId, (hasState_reset _).trans h.hasState,
      Agent.searchState_reset _, fun _ => ⟨rfl, rfl⟩⟩
  | setQueryId id =>
    exact ⟨rfl, fun _ => rfl, h.query, rfl, (hasState_reset _).trans h.hasState,
      Agent.searchState_reset _, fun _ => ⟨rfl, rfl⟩⟩
  | initState => exact follows_initState h
  | clear => exact ⟨rfl, fun _ => rfl, rfl, rfl, rfl, rfl, fun _ => ⟨rfl, rfl⟩⟩
  | lookup => exact follows_lookup hindexes h
  | reverseLookup => exact follows_reverseLookup hindexes h
  | prefixSearch => exact follows_next h .prefixes (hlist .prefixes)
  | extensionSearch => exact follows_next h .extensions (hlist .extensions)

/-- A key is seen only if there is one. -/
theorem replyOf_eq {outcome : Except Fault Bool} {key key' : List UInt8 × Nat}
    (h : outcome = .ok true → key = key') : replyOf outcome key = replyOf outcome key' := by
  cases outcome with
  | error fault => rfl
  | ok hit =>
    cases hit with
    | false => rfl
    | true => rw [h rfl]

/-- Every row of requests gets the replies of the cursor. -/
theorem replies_eq_of_tracks (hindexes : Indexes c s ks)
    (hlist : ∀ kind query, Delivers (Dictionary.searchNext ⟨some c⟩ kind)
      (({} : Agent).setQuery query) (ks.hitsOf extensions kind query)) :
    ∀ {requests : List Request} {m : Cursor} {a : Agent},
      m.Tracks ⟨some c⟩ (ks.hitsOf extensions) a →
      Dictionary.replies ⟨some c⟩ a requests = m.replies ks extensions requests
  | [], _, _, _ => rfl
  | r :: requests, m, a, h => by
      obtain ⟨houtcome, hkey, htracks⟩ := follows_serve hindexes hlist h r
      simp only [Dictionary.replies, replies]
      rw [replies_eq_of_tracks hindexes hlist htracks, replyOf_eq hkey, houtcome]

end Cursor

/-! ## The lists of a dictionary -/

namespace Indexes

variable {c : Cascade} {s : Shape} {ks : Keyset}

/-- A new agent is delivered the prefixes of its query. -/
theorem delivers_prefixesOf (h : Indexes c s ks) (query : List UInt8) :
    Delivers (Dictionary.prefixSearch ⟨some c⟩) (({} : Agent).setQuery query)
      (ks.prefixesOf query) := by
  obtain ⟨hits, hascending, hmem, hdelivers⟩ :=
    Cascade.exists_hits_of_query h.tells (({} : Agent).searchState_setQuery query)
  have heq : hits = ks.prefixesOf query := by
    refine eq_of_ascending hascending (ks.prefixesOf_ascending query) ?_
    rintro ⟨word, id⟩
    rw [hmem, h.mem_prefixesOf]
    rfl
  rwa [heq] at hdelivers

/-- An agent that keeps the suspended search alone replies as the cursor does. -/
theorem exists_extensions (h : Indexes c s ks) :
    ∃ extensions, (∀ query, Delivers (Dictionary.extensionSearch ⟨some c⟩)
        (({} : Agent).setQuery query) (extensions query))
      ∧ ∀ requests, Dictionary.replies ⟨some c⟩ ({} : Agent) requests
        = Cursor.replies ks extensions {} requests := by
  have hexists : ∀ query, ∃ hits,
      Delivers (Dictionary.extensionSearch ⟨some c⟩) (({} : Agent).setQuery query) hits := by
    intro query
    obtain ⟨hits, _, _, hdelivers⟩ :=
      Cascade.exists_hits_below h.tells (({} : Agent).searchState_setQuery query)
    exact ⟨hits, hdelivers⟩
  choose extensions hextensions using hexists
  refine ⟨extensions, hextensions, ?_⟩
  intro requests
  have hlist : ∀ kind query, Delivers (Dictionary.searchNext ⟨some c⟩ kind)
      (({} : Agent).setQuery query) (ks.hitsOf extensions kind query) := by
    intro kind
    cases kind with
    | prefixes => exact h.delivers_prefixesOf
    | extensions => exact hextensions
  have htracks : Cursor.Tracks ⟨some c⟩ (ks.hitsOf extensions) {} {} :=
    ⟨rfl, rfl, rfl, rfl, fun _ => ⟨rfl, rfl⟩⟩
  exact Cursor.replies_eq_of_tracks h hlist htracks

end Indexes

namespace Dictionary

/-- An agent with the record that all searches share is a cursor in two lists, the keys that are
prefixes of its query and those that the search for extensions gives to a new agent: all that was
suspended, given up, used up or refused before, and all that it left in the record, makes no
difference to the replies but for where the cursor is. -/
theorem replies_eq {ks : Keyset} {config : Config} (hlimits : ks.WithinLimits)
    (hvalid : config.Valid) :
    ∃ d ks' extensions, Dictionary.build ks config = .ok (d, ks') ∧ ks.SameKeys ks'
      ∧ (∀ query,
        Delivers d.extensionSearch (({} : Agent State).setQuery query) (extensions query))
      ∧ ∀ requests,
        d.replies ({} : Agent State) requests = Cursor.replies ks' extensions {} requests := by
  obtain ⟨c, s, ks', hbuild, hsame, hindexes⟩ := Dictionary.build_spec hlimits hvalid
  obtain ⟨extensions, hextensions, hreplies⟩ := hindexes.exists_extensions
  refine ⟨⟨some c⟩, ks', extensions, hbuild, hsame, ?_, ?_⟩
  · intro query
    have hset := (State.shows_fresh.serve State.simulates ⟨some c⟩ (.setQuery query)).rest
    exact hset.extensionSearch_delivers State.simulates (hextensions query)
  · intro requests
    rw [State.shows_fresh.replies State.simulates, hreplies]

/-- A lookup between two calls makes the search for prefixes start over, so both get one reply. -/
theorem replies_lookup_between : ∃ d ks',
    Dictionary.build (.ofList [[97], [97, 98], []]) {} = .ok (d, ks')
      ∧ d.replies ({} : Agent State) [.setQuery [97, 98], .prefixSearch, .lookup, .prefixSearch]
        = [.ok (some ([], 0)), .ok (ks'.prefixesOf [97, 98]).head?,
          .ok ((ks'.idOf? [97, 98]).map ([97, 98], ·)), .ok (ks'.prefixesOf [97, 98]).head?] := by
  have hlimits : (Keyset.ofList [[97], [97, 98], []]).WithinLimits := by decide
  have hvalid : ({} : Config).Valid := by decide
  obtain ⟨d, ks', extensions, hbuild, _, _, hreplies⟩ := replies_eq hlimits hvalid
  refine ⟨d, ks', hbuild, ?_⟩
  rw [hreplies, List.head?_eq_getElem?]
  cases hid : ks'.idOf? [97, 98] <;> cases hfirst : (ks'.prefixesOf [97, 98])[0]? <;>
    simp [Cursor.replies, Cursor.serve, Cursor.next, Cursor.advance, Keyset.hitsOf, replyOf, hid,
      hfirst, Except.map]

end Dictionary

end Lexicon
