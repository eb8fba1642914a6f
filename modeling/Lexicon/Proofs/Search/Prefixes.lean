/-
Lexicon.Proofs.Search.Prefixes — the search for prefixes gives each of them, the shortest first.

Between two calls the agent stands at a node that spells the front of its query, and what
is still to come are the keys behind it (`KeysAlong`). One call goes to the next of them
(`Moves.nextPrefix?_spec`); by induction on the bytes that are left, repeated calls give
them all (`Cascade.exists_hits_along`). `Dictionary.prefixSearch_complete` starts this at
the root, where the empty key may be the first hit.
-/
import Lexicon.Proofs.Search.Exact

namespace Lexicon

/-- The hits are the keys that go on from `w` with some front of `rest`, the shortest first. -/
structure KeysAlong (s : Shape) (w rest : List UInt8) (hits : List (List UInt8 × Nat)) : Prop where
  ascending : hits.Pairwise fun hit hit' => hit.1.length < hit'.1.length
  mem_iff : ∀ word id, (word, id) ∈ hits ↔
    ∃ p, p <+: rest ∧ p ≠ [] ∧ word = w ++ p ∧ s.Keyed word id

namespace KeysAlong

variable {s : Shape} {w p more : List UInt8} {id : Nat} {hits : List (List UInt8 × Nat)}

theorem nil {rest : List UInt8}
    (hnone : ∀ p, p <+: rest → p ≠ [] → ∀ id, ¬s.Keyed (w ++ p) id) : KeysAlong s w rest [] := by
  refine ⟨List.Pairwise.nil, ?_⟩
  intro word id
  constructor
  · intro hmem
    cases hmem
  · rintro ⟨p, hp, hne, rfl, hkeyed⟩
    exact absurd hkeyed (hnone p hp hne id)

/-- The first key on the way and the keys behind it are all of them. -/
theorem cons (hsound : s.Sound) (hne : p ≠ []) (hkeyed : s.Keyed (w ++ p) id)
    (hbetween : ∀ p', p' <+: p ++ more → p' ≠ [] → p'.length < p.length →
      ∀ id', ¬s.Keyed (w ++ p') id')
    (h : KeysAlong s (w ++ p) more hits) : KeysAlong s w (p ++ more) ((w ++ p, id) :: hits) := by
  refine ⟨List.pairwise_cons.mpr ⟨?_, h.ascending⟩, ?_⟩
  · rintro ⟨word, id'⟩ hmem
    obtain ⟨r, _, hr, rfl, _⟩ := (h.mem_iff word id').mp hmem
    have hpos := List.length_pos_iff.mpr hr
    simp only [List.length_append]
    omega
  · intro word id'
    rw [List.mem_cons, h.mem_iff]
    constructor
    · rintro (heq | ⟨r, hr, hrne, rfl, hkeyed'⟩)
      · obtain ⟨rfl, rfl⟩ := Prod.mk.inj heq
        exact ⟨p, List.prefix_append _ _, hne, rfl, hkeyed⟩
      · exact ⟨p ++ r, (List.prefix_append_right_inj p).mpr hr, by simp [hne],
          List.append_assoc _ _ _, hkeyed'⟩
    · rintro ⟨p', hp', hne', rfl, hkeyed'⟩
      have hlength : ¬p'.length < p.length :=
        fun hlt => hbetween p' hp' hne' hlt id' hkeyed'
      obtain ⟨r, rfl⟩ := List.prefix_of_prefix_length_le (List.prefix_append p more) hp'
        (Nat.le_of_not_lt hlength)
      have hr := (List.prefix_append_right_inj p).mp hp'
      by_cases hrne : r = []
      · subst hrne
        rw [List.append_nil] at hkeyed' ⊢
        exact Or.inl (by rw [hkeyed'.unique hsound hkeyed])
      · exact Or.inr ⟨r, hr, hrne, (List.append_assoc _ _ _).symm, hkeyed'⟩

/-- Behind the root are the prefixes that are not empty. -/
theorem mem_root_iff {query word : List UInt8} (h : KeysAlong s [] query hits) :
    (word, id) ∈ hits ↔ word ≠ [] ∧ word <+: query ∧ s.Keyed word id := by
  rw [h.mem_iff]
  constructor
  · rintro ⟨p, hp, hne, rfl, hkeyed⟩
    exact ⟨hne, hp, hkeyed⟩
  · rintro ⟨hne, hp, hkeyed⟩
    exact ⟨word, hp, hne, rfl, hkeyed⟩

/-- With the empty key in front the hits are all keys that are prefixes. -/
theorem mem_cons_root_iff {query word : List UInt8} {id' : Nat} (h : KeysAlong s [] query hits)
    (hsound : s.Sound) (hroot : s.Keyed [] id) :
    (word, id') ∈ ([], id) :: hits ↔ word <+: query ∧ s.Keyed word id' := by
  rw [List.mem_cons, h.mem_root_iff]
  constructor
  · rintro (heq | ⟨_, hfront, hkeyed⟩)
    · obtain ⟨rfl, rfl⟩ := Prod.mk.inj heq
      exact ⟨List.nil_prefix, hroot⟩
    · exact ⟨hfront, hkeyed⟩
  · rintro ⟨hfront, hkeyed⟩
    by_cases hword : word = []
    · subst hword
      exact Or.inl (by rw [hkeyed.unique hsound hroot])
    · exact Or.inr ⟨hword, hfront, hkeyed⟩

/-- Without an empty key the hits are all keys that are prefixes. -/
theorem mem_iff_of_no_root {query word : List UInt8} (h : KeysAlong s [] query hits)
    (hroot : ∀ id, ¬s.Keyed [] id) : (word, id) ∈ hits ↔ word <+: query ∧ s.Keyed word id := by
  rw [h.mem_root_iff, and_iff_right_iff_imp]
  intro hfront hword
  subst hword
  exact hroot id hfront.2

end KeysAlong

/-! ## Repeating the search -/

namespace Cascade

variable {c : Cascade} {s : Shape} {a : Agent}

/-- Once the search for prefixes is done it stays so. -/
theorem delivers_prefixesDone {state : SearchState} (hstate : a.state = some state)
    (hdone : state.progress = .prefixesDone) :
    Delivers (Dictionary.prefixSearch ⟨some c⟩) a [] := by
  have hsearch : state.nextPrefix? c.moves a.query = some (state, none) := by
    rw [SearchState.nextPrefix?, hdone]
  have hself : a.searchState = state := by rw [Agent.searchState, hstate, Option.getD_some]
  apply Delivers.nil_of_fixed
  rw [← hself] at hsearch
  rw [Dictionary.prefixSearch_of_some hsearch, hself, Option.map_none, Agent.after_self hstate]

/-- Repeated calls give the keys behind a node that spells the front of the query. -/
theorem exists_hits_along (h : c.Tells s) {node : Nat} {w rest : List UInt8}
    (hnode : s.Spells node w) (hquery : a.query = w ++ rest)
    (hsearch : a.searchState.nextPrefix? c.moves a.query
      = a.searchState.advancePrefix? c.moves a.query node w.length) :
    ∃ hits, KeysAlong s w rest hits ∧ Delivers (Dictionary.prefixSearch ⟨some c⟩) a hits := by
  induction hn : rest.length using Nat.strong_induction_on generalizing a node w rest with
  | _ n ih =>
    have htake : a.query.take w.length = w := by rw [hquery, List.take_left]
    have hdrop : a.query.drop w.length = rest := by rw [hquery, List.drop_left]
    obtain ⟨hit, hadvance, hnext⟩ :=
      SearchState.advancePrefix?_spec h.lays.sound (htake.symm ▸ hnode)
    rw [htake, hdrop] at hnext
    have hcall := Dictionary.prefixSearch_of_some (hsearch.trans (hadvance a.searchState h.follow))
    cases hnext with
    | @hit x id p hp hne hx hid hbetween =>
      obtain ⟨more, rfl⟩ := hp
      have hlength : w.length + p.length = (w ++ p).length := List.length_append.symm
      rw [hlength] at hcall
      have hquery' : a.query = (w ++ p) ++ more := by rw [hquery, List.append_assoc]
      have hshorter : more.length < n := by
        have hpos := List.length_pos_iff.mpr hne
        rw [← hn, List.length_append]
        omega
      obtain ⟨hits, halong, hdelivers⟩ := ih more.length hshorter
        (a := (a.after { a.searchState with progress := .prefixes x (w ++ p).length }
          (some (.front (w ++ p).length id))).1) hx hquery' rfl rfl
      refine ⟨(w ++ p, id) :: hits, halong.cons h.lays.sound hne ⟨x, hx, hid⟩ hbetween, ?_⟩
      refine Delivers.cons hcall ?_ rfl hdelivers
      show a.query.take (w ++ p).length = w ++ p
      rw [hquery', List.take_left]
    | done hnone =>
      exact ⟨[], KeysAlong.nil hnone, Delivers.nil_of_step hcall (delivers_prefixesDone rfl rfl)⟩

/-- A fresh search gives the keys that are prefixes of the query; only the empty one is not behind
the root. -/
theorem exists_hits_of_query (h : c.Tells s) (hfresh : a.searchState.progress = .fresh) :
    ∃ hits, (hits.Pairwise fun hit hit' => hit.1.length < hit'.1.length)
      ∧ (∀ word id, (word, id) ∈ hits ↔ word <+: a.query ∧ s.Keyed word id)
      ∧ Delivers (Dictionary.prefixSearch ⟨some c⟩) a hits := by
  have hsound := h.lays.sound
  have hstart : a.searchState.nextPrefix? c.moves a.query
      = a.searchState.startPrefix? c.moves a.query := by
    rw [SearchState.nextPrefix?, hfresh]
  cases hroot : s.keyAt 0 with
  | some id =>
    have hkeyed : s.Keyed [] id := ⟨0, .root, hroot⟩
    have hcall := Dictionary.prefixSearch_of_some
      (hstart.trans (SearchState.startPrefix?_of_key h.follow hroot _))
    obtain ⟨hits, halong, hdelivers⟩ := exists_hits_along
      (a := (a.after { a.searchState with progress := .prefixes 0 0 } (some (.front 0 id))).1)
      h .root rfl rfl
    refine ⟨([], id) :: hits, List.pairwise_cons.mpr ⟨?_, halong.ascending⟩, ?_, ?_⟩
    · intro hit hmem
      exact List.length_pos_iff.mpr (halong.mem_root_iff.mp hmem).1
    · intro word id'
      exact halong.mem_cons_root_iff hsound hkeyed
    · exact Delivers.cons hcall rfl rfl hdelivers
  | none =>
    obtain ⟨hits, halong, hdelivers⟩ := exists_hits_along h (a := a) .root rfl
      (hstart.trans (SearchState.startPrefix?_of_none h.follow hroot _))
    refine ⟨hits, halong.ascending, ?_, hdelivers⟩
    intro word id
    refine halong.mem_iff_of_no_root ?_
    intro id hkeyed
    obtain ⟨x, hx, hid⟩ := hkeyed
    rw [hsound.eq_of_spells hx .root, hroot] at hid
    cases hid

end Cascade

namespace Dictionary

/-- Setting a query and repeating the search gives every key that is a prefix of the query once, the
shortest first, with the id that every entry of that key was given, and then no more. -/
theorem prefixSearch_complete {ks : Keyset} {config : Config} (hlimits : ks.WithinLimits)
    (hvalid : config.Valid) :
    ∃ d ks', Dictionary.build ks config = .ok (d, ks') ∧ ks.SameKeys ks'
      ∧ ∀ (a : Agent) (query : List UInt8), ∃ hits,
        (hits.Pairwise fun hit hit' => hit.1.length < hit'.1.length)
        ∧ (∀ word, word ∈ hits.map Prod.fst ↔ word ∈ ks.keys ∧ word <+: query)
        ∧ (∀ hit ∈ hits, ks'.Assigns hit.1 hit.2)
        ∧ Delivers d.prefixSearch (a.setQuery query) hits := by
  obtain ⟨c, s, ks', hbuild, hsame, hindexes⟩ := Dictionary.build_spec hlimits hvalid
  refine ⟨⟨some c⟩, ks', hbuild, hsame, ?_⟩
  intro a query
  obtain ⟨hits, hascending, hmem, hdelivers⟩ :=
    Cascade.exists_hits_of_query hindexes.tells (a.searchState_setQuery query)
  obtain ⟨hwords, hids⟩ := hindexes.words_of_hits hmem
  rw [hsame.keys_eq] at hwords
  exact ⟨hits, hascending, hwords, hids, hdelivers⟩

/-- The query `abc` is delivered the empty key and `ab`, and neither `abd` nor `b`. -/
theorem prefixSearch_abc : ∃ d ks' hits,
    Dictionary.build (.ofList [[97, 98], [98], [], [97, 98, 100]]) {} = .ok (d, ks')
      ∧ [] ∈ hits.map Prod.fst ∧ [97, 98] ∈ hits.map Prod.fst
      ∧ [97, 98, 100] ∉ hits.map Prod.fst ∧ [98] ∉ hits.map Prod.fst
      ∧ Delivers d.prefixSearch (({} : Agent).setQuery [97, 98, 99]) hits := by
  have hlimits : (Keyset.ofList [[97, 98], [98], [], [97, 98, 100]]).WithinLimits := by decide
  have hvalid : ({} : Config).Valid := by decide
  obtain ⟨d, ks', hbuild, _, hall⟩ := prefixSearch_complete hlimits hvalid
  obtain ⟨hits, _, hmem, _, hdelivers⟩ := hall {} [97, 98, 99]
  refine ⟨d, ks', hits, hbuild, ?_, ?_, ?_, ?_, hdelivers⟩
  · exact (hmem []).mpr (by decide)
  · exact (hmem [97, 98]).mpr (by decide)
  · exact mt (hmem [97, 98, 100]).mp (by decide)
  · exact mt (hmem [98]).mp (by decide)

end Dictionary

end Lexicon
