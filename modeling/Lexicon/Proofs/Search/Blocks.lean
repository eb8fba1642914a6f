/-
Lexicon.Proofs.Search.Blocks — the keys that start with a query stand together.

A search for extensions gives the keys of the nodes at and below one node, in the order
of the nodes, and so does the search with the empty query, from the root on. The nodes
below a node are a block of those below the root (`Shape.subtree_block`), and which key
a node has is a matter of the tree, so the keys are a block as well
(`ExtensionsOf.block`). Nothing is said about the order of siblings: the block is one in
whatever order the weights have put them.
-/
import Lexicon.Proofs.Search.Extensions
import Mathlib.Data.List.Forall2

namespace Lexicon

/-- A node with the key that ends there and its id. -/
def Shape.Ends (s : Shape) (z : Nat) (hit : List UInt8 × Nat) : Prop :=
  s.Spells z hit.1 ∧ s.keyAt z = some hit.2

theorem Shape.ends_rightUnique (s : Shape) : Relator.RightUnique s.Ends := by
  intro z hit hit' h h'
  have hid := h.2.symm.trans h'.2
  exact Prod.ext (h.1.unique h'.1) (Option.some.inj hid)

variable {s : Shape} {query : List UInt8}

/-- The hits are those of the nodes one by one. -/
theorem KeysOf.forall₂_ends (hsound : s.Sound) {nodes : List Nat} {hits : List (List UInt8 × Nat)}
    (h : KeysOf s nodes hits) : List.Forall₂ s.Ends nodes hits := by
  have hspelled : List.Forall₂ (fun z hit => s.Spells z hit.1) nodes hits :=
    List.forall₂_map_right_iff.mp h.spelled
  rw [List.forall₂_iff_zip] at hspelled ⊢
  refine ⟨hspelled.1, ?_⟩
  intro z hit hmem
  have hz := hspelled.2 hmem
  obtain ⟨z', _, hspells, hid⟩ := (h.mem_iff hit.1 hit.2).mp (List.of_mem_zip hmem).2
  rw [hsound.eq_of_spells hspells hz] at hid
  exact ⟨hz, hid⟩

/-- A block of nodes has a block of the hits. -/
theorem block_of_forall₂_ends {nodes block : List Nat} {all hits : List (List UInt8 × Nat)}
    (hall : List.Forall₂ s.Ends nodes all) (hhits : List.Forall₂ s.Ends block hits)
    (h : block <:+: nodes) : hits <:+: all := by
  obtain ⟨before, after, rfl⟩ := h
  have hfront := List.forall₂_take (before ++ block).length hall
  rw [List.take_left] at hfront
  have hmiddle := List.forall₂_drop before.length hfront
  rw [List.drop_left] at hmiddle
  rw [List.right_unique_forall₂' s.ends_rightUnique hhits hmiddle]
  exact (List.drop_suffix _ _).isInfix.trans (List.take_prefix _ _).isInfix

namespace ExtensionsOf

variable {all hits : List (List UInt8 × Nat)}

/-- All keys are those at and below the root. -/
theorem keysOf_root (hsound : s.Sound) (h : ExtensionsOf s [] all) :
    KeysOf s (Tour.keyed s (s.subtree 0)) all := by
  cases h with
  | @below v _ _ _ habove hkeys =>
    have hroot : s.Above v 0 := (habove 0 [] .root).mp List.nil_prefix
    obtain rfl := Nat.le_zero.mp (hsound.le_of_above hroot)
    exact hkeys
  | none hnone => exact absurd List.nil_prefix (hnone 0 [] .root)

/-- The keys that start with a query are a block of all keys. -/
theorem block (hsound : s.Sound) (hall : ExtensionsOf s [] all) (h : ExtensionsOf s query hits) :
    hits <:+: all := by
  cases h with
  | @below v bytes _ hv _ hkeys =>
    have hblock : Tour.keyed s (s.subtree v) <:+: Tour.keyed s (s.subtree 0) :=
      (Shape.subtree_block hsound (Shape.root_above hv)).filter _
    exact block_of_forall₂_ends ((hall.keysOf_root hsound).forall₂_ends hsound)
      (hkeys.forall₂_ends hsound) hblock
  | none _ => exact List.nil_infix

/-- Of all keys, the hits are those that start with the query. -/
theorem eq_filter (hsound : s.Sound) (hall : ExtensionsOf s [] all)
    (h : ExtensionsOf s query hits) :
    hits = all.filter fun hit => query.isPrefixOf hit.1 := by
  obtain ⟨before, after, hsplit⟩ := hall.block hsound h
  have hnodup : (before ++ hits ++ after).Nodup := by
    rw [hsplit]
    exact hall.nodup.of_map _
  obtain ⟨hfront, _, hafter⟩ := List.nodup_append'.mp hnodup
  obtain ⟨_, _, hbefore⟩ := List.nodup_append'.mp hfront
  have hstart : ∀ hit ∈ hits, query <+: hit.1 :=
    fun hit hmem => ((h.mem_iff hsound).mp hmem).1
  have hothers : ∀ hit ∈ all, query.isPrefixOf hit.1 = true → hit ∈ hits := by
    intro hit hmem hquery
    have hkeyed := ((hall.mem_iff hsound).mp hmem).2
    exact (h.mem_iff hsound).mpr ⟨List.isPrefixOf_iff_prefix.mp hquery, hkeyed⟩
  have hnone : ∀ part : List (List UInt8 × Nat), part ⊆ all → List.Disjoint part hits →
      part.filter (fun hit => query.isPrefixOf hit.1) = [] := by
    intro part hpart hdisjoint
    rw [List.filter_eq_nil_iff]
    intro hit hmem hquery
    exact hdisjoint hmem (hothers hit (hpart hmem) hquery)
  have hown : hits.filter (fun hit => query.isPrefixOf hit.1) = hits := by
    rw [List.filter_eq_self]
    intro hit hmem
    exact List.isPrefixOf_iff_prefix.mpr (hstart hit hmem)
  have hbefore' := hnone before (by rw [← hsplit]; simp) hbefore
  have hafter' := hnone after (by rw [← hsplit]; simp)
    fun hit hmem hhit => hafter (List.mem_append_right before hhit) hmem
  rw [← hsplit, List.filter_append, List.filter_append, hbefore', hown, hafter', List.nil_append,
    List.append_nil]

theorem unique (hsound : s.Sound) {hits' : List (List UInt8 × Nat)} (h : ExtensionsOf s [] hits)
    (h' : ExtensionsOf s [] hits') : hits = hits' :=
  List.right_unique_forall₂' s.ends_rightUnique ((h.keysOf_root hsound).forall₂_ends hsound)
    ((h'.keysOf_root hsound).forall₂_ends hsound)

end ExtensionsOf

/-- All agents that were asked for no bytes are given one list of all keys with their ids. -/
theorem Indexes.exists_all {c : Cascade} {ks : Keyset} (h : Indexes c s ks) :
    ∃ all, ExtensionsOf s [] all ∧ (∀ word, word ∈ all.map Prod.fst ↔ word ∈ ks.keys)
      ∧ (∀ hit ∈ all, ks.Assigns hit.1 hit.2)
      ∧ ∀ a : Agent, Delivers (Dictionary.extensionSearch ⟨some c⟩) (a.setQuery []) all := by
  have hsound := h.tells.lays.sound
  have hhits : ∀ a : Agent, ∃ hits, ExtensionsOf s [] hits
      ∧ Delivers (Dictionary.extensionSearch ⟨some c⟩) (a.setQuery []) hits :=
    fun a => Cascade.exists_hits_located h.tells (a.searchState_setQuery [])
  obtain ⟨all, hall, _⟩ := hhits {}
  have hmem : ∀ word id, (word, id) ∈ all ↔ [] <+: word ∧ s.Keyed word id :=
    fun word id => hall.mem_iff hsound
  obtain ⟨hwords, hids⟩ := h.words_of_hits hmem
  refine ⟨all, hall, ?_, hids, ?_⟩
  · intro word
    rw [hwords]
    exact and_iff_left List.nil_prefix
  · intro a
    obtain ⟨hits, hextensions, hdelivers⟩ := hhits a
    rwa [hall.unique hsound hextensions]

namespace Dictionary

/-- There is one list of all keys, each once with its id, that the search for extensions gives to
every agent that was asked for no bytes. Asked for any others, it gives those of the list that start
with them, in the order of the list, and they stand together in it. -/
theorem extensionSearch_block {ks : Keyset} {config : Config} (hlimits : ks.WithinLimits)
    (hvalid : config.Valid) :
    ∃ d ks' all, Dictionary.build ks config = .ok (d, ks') ∧ ks.SameKeys ks'
      ∧ (all.map Prod.fst).Nodup ∧ (∀ word, word ∈ all.map Prod.fst ↔ word ∈ ks.keys)
      ∧ (∀ hit ∈ all, ks'.Assigns hit.1 hit.2)
      ∧ (∀ a : Agent, Delivers d.extensionSearch (a.setQuery []) all)
      ∧ ∀ (a : Agent) (query : List UInt8),
        Delivers d.extensionSearch (a.setQuery query) (all.filter fun hit => query.isPrefixOf hit.1)
          ∧ (all.filter fun hit => query.isPrefixOf hit.1) <:+: all := by
  obtain ⟨c, s, ks', hbuild, hsame, hindexes⟩ := Dictionary.build_spec hlimits hvalid
  have hsound := hindexes.tells.lays.sound
  obtain ⟨all, hall, hwords, hids, hdelivers⟩ := hindexes.exists_all
  refine ⟨⟨some c⟩, ks', all, hbuild, hsame, hall.nodup, ?_, hids, hdelivers, ?_⟩
  · intro word
    rw [hwords, hsame.keys_eq]
  · intro a query
    obtain ⟨hits, hextensions, hgiven⟩ : ∃ hits, ExtensionsOf s query hits
        ∧ Delivers (Dictionary.extensionSearch ⟨some c⟩) (a.setQuery query) hits :=
      Cascade.exists_hits_located hindexes.tells (a.searchState_setQuery query)
    rw [← hall.eq_filter hsound hextensions]
    exact ⟨hgiven, hall.block hsound hextensions⟩

/-- The query `ab` ends inside a label, the weights are no numbers, and the keys below it are a
block of two in a list of four. -/
theorem extensionSearch_block_ab : ∃ d ks' all,
    Dictionary.build ⟨#[{ bytes := [97, 98, 99, 100], weight := ⟨0x7FC00000⟩ },
      { bytes := [98], weight := ⟨0x7F800000⟩ }, { bytes := [97] },
      { bytes := [97, 98, 99, 101], weight := ⟨0xFF800000⟩ }]⟩ {} = .ok (d, ks')
      ∧ Delivers d.extensionSearch (({} : Agent).setQuery []) all
      ∧ Delivers d.extensionSearch (({} : Agent).setQuery [97, 98])
        (all.filter fun hit => [97, 98].isPrefixOf hit.1)
      ∧ (all.filter fun hit => [97, 98].isPrefixOf hit.1) <:+: all
      ∧ [97, 98, 99, 101] ∈ all.map Prod.fst := by
  have hlimits : (⟨#[{ bytes := [97, 98, 99, 100], weight := ⟨0x7FC00000⟩ },
      { bytes := [98], weight := ⟨0x7F800000⟩ }, { bytes := [97] },
      { bytes := [97, 98, 99, 101], weight := ⟨0xFF800000⟩ }]⟩ : Keyset).WithinLimits := by decide
  have hvalid : ({} : Config).Valid := by decide
  obtain ⟨d, ks', all, hbuild, _, _, hwords, _, hall, hblock⟩ :=
    extensionSearch_block hlimits hvalid
  obtain ⟨hdelivers, hinfix⟩ := hblock {} [97, 98]
  exact ⟨d, ks', all, hbuild, hall {}, hdelivers, hinfix, (hwords _).mpr (by decide)⟩

end Dictionary

end Lexicon
