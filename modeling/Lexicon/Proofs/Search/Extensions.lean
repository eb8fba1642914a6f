/-
Lexicon.Proofs.Search.Extensions — the search for extensions gives each of them once.

The keys that start with a query are those of the nodes below one node, or there are none
(`Moves.locateFrom?_spec`). A suspended tour stands before a list of nodes that are left, and
taking it up again reports the first of them where a key ends (`Moves.resume?_spec`);
by induction on how many such nodes are left, repeated calls report the keys of all of
them (`Cascade.exists_hits_of_event`). No node is left twice, and no two nodes spell one
word, which is why no key is given twice. The keys come in the order of the nodes, so in the
order of the siblings (`Cascade.exists_hits_in_order`).
-/
import Lexicon.Proofs.Search.Exact
import Lexicon.Proofs.Shape.Order

namespace Lexicon

/-- The hits are the keys of the given nodes, each once and in the order of the nodes. -/
structure KeysOf (s : Shape) (nodes : List Nat) (hits : List (List UInt8 × Nat)) : Prop where
  nodup : (hits.map Prod.fst).Nodup
  spelled : List.Forall₂ s.Spells nodes (hits.map Prod.fst)
  mem_iff : ∀ word id, (word, id) ∈ hits ↔ ∃ z ∈ nodes, s.Spells z word ∧ s.keyAt z = some id

namespace KeysOf

variable {s : Shape}

theorem nil : KeysOf s [] [] :=
  ⟨List.nodup_nil, List.Forall₂.nil, by simp⟩

/-- One more node gives one more key, because no other node spells its word. -/
theorem cons (hsound : s.Sound) {z id : Nat} {word : List UInt8} {nodes : List Nat}
    {hits : List (List UInt8 × Nat)} (hz : s.Spells z word) (hid : s.keyAt z = some id)
    (hnew : z ∉ nodes) (h : KeysOf s nodes hits) : KeysOf s (z :: nodes) ((word, id) :: hits) := by
  refine ⟨?_, h.spelled.cons hz, ?_⟩
  · rw [List.map_cons, List.nodup_cons]
    refine ⟨?_, h.nodup⟩
    intro hmem
    obtain ⟨⟨word', id'⟩, hhit, heq⟩ := List.mem_map.mp hmem
    obtain rfl : word' = word := heq
    obtain ⟨x, hx, hspells, _⟩ := (h.mem_iff word' id').mp hhit
    rw [hsound.eq_of_spells hspells hz] at hx
    exact hnew hx
  · intro word' id'
    rw [List.mem_cons, h.mem_iff]
    constructor
    · rintro (heq | ⟨x, hx, hspells, hid'⟩)
      · obtain ⟨rfl, rfl⟩ := Prod.mk.inj heq
        exact ⟨z, List.mem_cons_self, hz, hid⟩
      · exact ⟨x, List.mem_cons_of_mem z hx, hspells, hid'⟩
    · rintro ⟨x, hx, hspells, hid'⟩
      rcases List.mem_cons.mp hx with rfl | hx
      · rw [hid] at hid'
        obtain rfl := Option.some.inj hid'
        exact Or.inl (by rw [hspells.unique hz])
      · exact Or.inr ⟨x, hx, hspells, hid'⟩

/-- The keys of the nodes of a subtree are the keys that its root is above. -/
theorem mem_subtree_iff (hsound : s.Sound) {v id : Nat} {word : List UInt8}
    {hits : List (List UInt8 × Nat)} (h : KeysOf s (Tour.keyed s (s.subtree v)) hits) :
    (word, id) ∈ hits ↔ ∃ z, s.Above v z ∧ s.Spells z word ∧ s.keyAt z = some id := by
  rw [h.mem_iff]
  constructor
  · rintro ⟨z, hz, hspells, hid⟩
    exact ⟨z, (Shape.mem_subtree hsound).mp (List.mem_of_mem_filter hz), hspells, hid⟩
  · rintro ⟨z, hz, hspells, hid⟩
    have hmem := (Shape.mem_subtree hsound).mpr hz
    exact ⟨z, List.mem_filter.mpr ⟨hmem, by rw [hid]; rfl⟩, hspells, hid⟩

/-- Keys of nodes that are listed in the order of their words are given in this order. -/
theorem pairwise {ranks : List UInt8 → UInt8 → UInt8 → Prop} {nodes : List Nat}
    {hits : List (List UInt8 × Nat)} (h : KeysOf s nodes hits)
    (hnodes : nodes.Pairwise fun z z' =>
      ∀ x y, s.Spells z x → s.Spells z' y → Precedes ranks x y) :
    (hits.map Prod.fst).Pairwise (Precedes ranks) := by
  have hlength := h.spelled.length_eq
  rw [List.pairwise_iff_getElem] at hnodes ⊢
  intro i j hi hj hij
  have hi' : i < nodes.length := by rwa [hlength]
  have hj' : j < nodes.length := by rwa [hlength]
  exact hnodes i j hi' hj' hij _ _ (h.spelled.get hi' hi) (h.spelled.get hj' hj)

end KeysOf

/-- The keys that start with a query, with their ids: those at and below the node where the query
leads, in the order of the nodes, or none if it leads nowhere. -/
inductive ExtensionsOf (s : Shape) (query : List UInt8) : List (List UInt8 × Nat) → Prop
  | below {v : Nat} {bytes : List UInt8} {hits : List (List UInt8 × Nat)} : s.Spells v bytes →
    (∀ z word, s.Spells z word → (query <+: word ↔ s.Above v z)) →
    KeysOf s (Tour.keyed s (s.subtree v)) hits → ExtensionsOf s query hits
  | none : (∀ z word, s.Spells z word → ¬query <+: word) → ExtensionsOf s query []

namespace ExtensionsOf

variable {s : Shape} {query : List UInt8} {hits : List (List UInt8 × Nat)}

theorem nodup (h : ExtensionsOf s query hits) : (hits.map Prod.fst).Nodup := by
  cases h with
  | below _ _ hkeys => exact hkeys.nodup
  | none _ => exact List.nodup_nil

theorem mem_iff (hsound : s.Sound) (h : ExtensionsOf s query hits) {word : List UInt8} {id : Nat} :
    (word, id) ∈ hits ↔ query <+: word ∧ s.Keyed word id := by
  cases h with
  | below _ habove hkeys =>
    rw [hkeys.mem_subtree_iff hsound]
    constructor
    · rintro ⟨z, hz, hspells, hid⟩
      exact ⟨(habove z word hspells).mpr hz, z, hspells, hid⟩
    · rintro ⟨hfront, z, hspells, hid⟩
      exact ⟨z, (habove z word hspells).mp hfront, hspells, hid⟩
  | none hnone =>
    constructor
    · intro hmem
      cases hmem
    · rintro ⟨hfront, z, hspells, _⟩
      exact absurd hfront (hnone z word hspells)

theorem pairwise (hsound : s.Sound) (h : ExtensionsOf s query hits)
    {ranks : List UInt8 → UInt8 → UInt8 → Prop} (hranked : s.Ranked ranks) :
    (hits.map Prod.fst).Pairwise (Precedes ranks) := by
  cases h with
  | @below v _ _ _ _ hkeys =>
    exact hkeys.pairwise ((Shape.subtree_pairwise hsound hranked v).filter _)
  | none _ => exact List.Pairwise.nil

end ExtensionsOf

/-! ## Repeating the search -/

namespace Cascade

variable {c : Cascade} {s : Shape} {a : Agent}

/-- Once the search for extensions is done it stays so. -/
theorem delivers_extensionsDone {state : SearchState} (hstate : a.state = some state)
    (hdone : state.progress = .extensionsDone) :
    Delivers (Dictionary.extensionSearch ⟨some c⟩) a [] := by
  have hsearch : state.nextExtension? c.moves a.query = some (state, none) := by
    rw [SearchState.nextExtension?, hdone]
  have hself : a.searchState = state := by rw [Agent.searchState, hstate, Option.getD_some]
  apply Delivers.nil_of_fixed
  rw [← hself] at hsearch
  rw [Dictionary.extensionSearch_of_some hsearch, hself, Option.map_none, Agent.after_self hstate]

/-- A call that reports what a tour comes to is followed by calls that report the keys of all nodes
that are left. -/
theorem exists_hits_of_event (h : c.Tells s) {root : Nat} (hroot : root < s.nodes.length)
    {left : List Nat} {event : Tour.Event} (hnodup : (Tour.keyed s left).Nodup)
    (hreaches : Tour.Reaches s root left event)
    (hsearch : a.searchState.nextExtension? c.moves a.query = some (SearchState.report event)) :
    ∃ hits, KeysOf s (Tour.keyed s left) hits
      ∧ Delivers (Dictionary.extensionSearch ⟨some c⟩) a hits := by
  have hsound := h.lays.sound
  have hcall := Dictionary.extensionSearch_of_some hsearch
  induction hn : (Tour.keyed s left).length generalizing a left event with
  | zero =>
    rw [List.length_eq_zero_iff] at hn
    rw [hn]
    cases hreaches with
    | key hkeyed =>
      rw [hn] at hkeyed
      cases hkeyed
    | finished _ =>
      exact ⟨[], KeysOf.nil, Delivers.nil_of_step hcall (delivers_extensionsDone rfl rfl)⟩
  | succ n ih =>
    cases hreaches with
    | @key z id tour left' hkeyed hspells hid hready =>
      rw [hkeyed] at hn hnodup ⊢
      obtain ⟨hnew, hnodup'⟩ := List.nodup_cons.mp hnodup
      obtain ⟨event', hresume, hreaches'⟩ := Moves.resume?_spec hsound hroot hready
      have hsearch' : (SearchState.report (.key id tour)).1.nextExtension? c.moves a.query
          = some (SearchState.report event') :=
        SearchState.nextExtension?_of_suspended rfl (hresume h.follow)
      obtain ⟨hits, hkeys, hdelivers⟩ := ih
        (a := (a.after (SearchState.report (.key id tour)).1 (some (.buffered id))).1)
        hnodup' hreaches' hsearch' (Dictionary.extensionSearch_of_some hsearch') (Nat.succ.inj hn)
      exact ⟨(tour.here.bytes, id) :: hits, hkeys.cons hsound hspells hid hnew,
        Delivers.cons hcall rfl rfl hdelivers⟩
    | finished hkeyed =>
      rw [hkeyed] at hn
      cases hn

/-- A fresh search gives the keys at and below the node where the query leads. -/
theorem exists_hits_located (h : c.Tells s) (hfresh : a.searchState.progress = .fresh) :
    ∃ hits, ExtensionsOf s a.query hits
      ∧ Delivers (Dictionary.extensionSearch ⟨some c⟩) a hits := by
  have hsound := h.lays.sound
  have hstart : a.searchState.nextExtension? c.moves a.query
      = SearchState.startExtension? c.moves a.query := by
    rw [SearchState.nextExtension?, hfresh]
  obtain ⟨place, hlocate, hlocated⟩ := SearchState.locate?_spec hsound a.query
  have hlocate := hlocate h.follow
  cases hlocated with
  | @found v bytes hv habove =>
    obtain ⟨event, hbegin, hreaches⟩ := Moves.beginTour?_spec hsound hv
    have hnodup : (Tour.keyed s (s.subtree v)).Nodup := (Shape.nodup_subtree hsound v).filter _
    obtain ⟨hits, hkeys, hdelivers⟩ := exists_hits_of_event h (hsound.lt_length_of_spells hv) hnodup
      hreaches (hstart.trans (SearchState.startExtension?_of_found hlocate (hbegin h.follow)))
    exact ⟨hits, .below hv habove hkeys, hdelivers⟩
  | @lost bytes hnone =>
    have hcall := Dictionary.extensionSearch_of_some
      (hstart.trans (SearchState.startExtension?_of_lost hlocate))
    exact ⟨[], .none hnone, Delivers.nil_of_step hcall (delivers_extensionsDone rfl rfl)⟩

/-- A fresh search gives the keys that start with the query, in the order in which the siblings of
every node rank. -/
theorem exists_hits_in_order (h : c.Tells s) (hfresh : a.searchState.progress = .fresh) :
    ∃ hits, (hits.map Prod.fst).Nodup
      ∧ (∀ word id, (word, id) ∈ hits ↔ a.query <+: word ∧ s.Keyed word id)
      ∧ Delivers (Dictionary.extensionSearch ⟨some c⟩) a hits
      ∧ ∀ ranks, s.Ranked ranks → (hits.map Prod.fst).Pairwise (Precedes ranks) := by
  have hsound := h.lays.sound
  obtain ⟨hits, hextensions, hdelivers⟩ := exists_hits_located h hfresh
  refine ⟨hits, hextensions.nodup, fun _ _ => hextensions.mem_iff hsound, hdelivers, ?_⟩
  intro ranks hranked
  exact hextensions.pairwise hsound hranked

/-- A fresh search gives the keys that start with the query. -/
theorem exists_hits_below (h : c.Tells s) (hfresh : a.searchState.progress = .fresh) :
    ∃ hits, (hits.map Prod.fst).Nodup
      ∧ (∀ word id, (word, id) ∈ hits ↔ a.query <+: word ∧ s.Keyed word id)
      ∧ Delivers (Dictionary.extensionSearch ⟨some c⟩) a hits := by
  obtain ⟨hits, hnodup, hmem, hdelivers, _⟩ := exists_hits_in_order h hfresh
  exact ⟨hits, hnodup, hmem, hdelivers⟩

end Cascade

namespace Dictionary

/-- Setting a query and repeating the search gives every key that starts with the query once, whole
and with the id that every entry of that key was given, and then no more. -/
theorem extensionSearch_complete {ks : Keyset} {config : Config} (hlimits : ks.WithinLimits)
    (hvalid : config.Valid) :
    ∃ d ks', Dictionary.build ks config = .ok (d, ks') ∧ ks.SameKeys ks'
      ∧ ∀ (a : Agent) (query : List UInt8), ∃ hits, (hits.map Prod.fst).Nodup
        ∧ (∀ word, word ∈ hits.map Prod.fst ↔ word ∈ ks.keys ∧ query <+: word)
        ∧ (∀ hit ∈ hits, ks'.Assigns hit.1 hit.2)
        ∧ Delivers d.extensionSearch (a.setQuery query) hits := by
  obtain ⟨c, s, ks', hbuild, hsame, hindexes⟩ := Dictionary.build_spec hlimits hvalid
  refine ⟨⟨some c⟩, ks', hbuild, hsame, ?_⟩
  intro a query
  obtain ⟨hits, hnodup, hmem, hdelivers⟩ :=
    Cascade.exists_hits_below hindexes.tells (a.searchState_setQuery query)
  obtain ⟨hwords, hids⟩ := hindexes.words_of_hits hmem
  rw [hsame.keys_eq] at hwords
  exact ⟨hits, hnodup, hwords, hids, hdelivers⟩

/-- The query `ab` ends inside the label that leads to `abcd`, and the keys below are delivered. -/
theorem extensionSearch_ab : ∃ d ks' hits,
    Dictionary.build (.ofList [[97, 98, 99, 100], [97], [97, 98, 99, 100, 101], [98]]) {}
        = .ok (d, ks')
      ∧ [97, 98, 99, 100] ∈ hits.map Prod.fst ∧ [97, 98, 99, 100, 101] ∈ hits.map Prod.fst
      ∧ [97] ∉ hits.map Prod.fst ∧ [98] ∉ hits.map Prod.fst
      ∧ Delivers d.extensionSearch (({} : Agent).setQuery [97, 98]) hits := by
  have hlimits : (Keyset.ofList
      [[97, 98, 99, 100], [97], [97, 98, 99, 100, 101], [98]]).WithinLimits := by decide
  have hvalid : ({} : Config).Valid := by decide
  obtain ⟨d, ks', hbuild, _, hall⟩ := extensionSearch_complete hlimits hvalid
  obtain ⟨hits, _, hmem, _, hdelivers⟩ := hall {} [97, 98]
  refine ⟨d, ks', hits, hbuild, ?_, ?_, ?_, ?_, hdelivers⟩
  · exact (hmem [97, 98, 99, 100]).mpr (by decide)
  · exact (hmem [97, 98, 99, 100, 101]).mpr (by decide)
  · exact mt (hmem [97]).mp (by decide)
  · exact mt (hmem [98]).mp (by decide)

end Dictionary

end Lexicon
