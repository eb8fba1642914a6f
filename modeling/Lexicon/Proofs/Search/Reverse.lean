/-
Lexicon.Proofs.Search.Reverse — the ids are the numbers of the keys.

The id of a key counts the flagged nodes before its own, so the ids are the numbers below
the count of flags (`Shape.exists_keyed_iff`), and from an id the node and its word are
found again (`Moves.keyOf?_of_keyed`). `Dictionary.reverseLookup_inverts` puts this
together: equal ids mean equal keys, no number is left out, and the search by id gives back
the key that got the id.
-/
import Lexicon.Proofs.Keys
import Lexicon.Proofs.Search.Exact
import Mathlib.Data.Finset.Card

namespace Lexicon

variable {c : Cascade} {s : Shape} {ks : Keyset}

/-- A flag belongs to a node; the bit that guards the end is no flag. -/
theorem Shape.lt_length_of_selectsAt {id v : Nat} (h : SelectsAt true s.terminalBits id v) :
    v < s.nodes.length := by
  have hlt := h.lt_length
  rw [Level.length_terminalBits] at hlt
  rcases Nat.lt_or_eq_of_le (Nat.le_of_lt_succ hlt) with hv | rfl
  · exact hv
  · have hbit := h.bit
    unfold Shape.terminalBits at hbit
    rw [List.getElem?_append_right (by simp)] at hbit
    simp at hbit

/-- The ids of keys are the numbers below the number of flags. -/
theorem Shape.exists_keyed_iff (hsound : s.Sound) {id : Nat} :
    (∃ word, s.Keyed word id) ↔ id < s.terminalBits.count true := by
  constructor
  · rintro ⟨word, x, _, hid⟩
    exact (Shape.keyAt_eq_some_iff.mp hid).lt_count
  · intro hid
    obtain ⟨v, hselects⟩ := exists_selectsAt s.terminalBits hid
    obtain ⟨word, hv⟩ := hsound.exists_spells (Shape.lt_length_of_selectsAt hselects)
    exact ⟨word, v, hv, Shape.keyAt_eq_some_iff.mpr hselects⟩

/-- The ids of keys are the numbers below the number of keys. -/
theorem Cascade.exists_keyed_iff (h : c.Tells s) {id : Nat} :
    (∃ word, s.Keyed word id) ↔ id < c.numKeys := by
  rw [numKeys_eq h]
  exact Shape.exists_keyed_iff h.lays.sound

/-! ## Counting the keys -/

namespace Indexes

/-- The ids in a keyset are the numbers below the number of keys. -/
theorem exists_entry_iff (h : Indexes c s ks) {id : Nat} :
    (∃ entry ∈ ks.entries.toList, entry.id = id) ↔ id < c.numKeys := by
  rw [← Cascade.exists_keyed_iff h.tells]
  constructor
  · rintro ⟨entry, hentry, hid⟩
    exact ⟨entry.bytes, (h.keyed_iff _ _).mpr ⟨entry, hentry, rfl, hid⟩⟩
  · rintro ⟨word, hword⟩
    obtain ⟨entry, hentry, _, hid⟩ := (h.keyed_iff _ _).mp hword
    exact ⟨entry, hentry, hid⟩

/-- Two entries have one id if they have the same bytes, and only then. -/
theorem id_eq_iff (h : Indexes c s ks) {entry other : Entry} (hentry : entry ∈ ks.entries.toList)
    (hother : other ∈ ks.entries.toList) : entry.id = other.id ↔ entry.bytes = other.bytes := by
  have hkeyed := (h.keyed_iff _ _).mpr ⟨entry, hentry, rfl, rfl⟩
  have hkeyed' := (h.keyed_iff _ _).mpr ⟨other, hother, rfl, rfl⟩
  constructor
  · intro heq
    rw [heq] at hkeyed
    exact hkeyed.injective hkeyed'
  · intro heq
    rw [heq] at hkeyed
    exact hkeyed.unique h.tells.lays.sound hkeyed'

/-- The different keys of a keyset are as many as there are ids. -/
theorem card_keys (h : Indexes c s ks) : ks.keys.toFinset.card = c.numKeys := by
  have hid : ∀ id ∈ Finset.range c.numKeys, ∃ word, s.Keyed word id ∧ c.moves.keyOf? id = some word := by
    intro id hid
    obtain ⟨word, hword⟩ := (Cascade.exists_keyed_iff h.tells).mpr (Finset.mem_range.mp hid)
    exact ⟨word, hword, Moves.keyOf?_of_keyed h.tells.follow hword⟩
  rw [← Finset.card_range c.numKeys]
  refine (Finset.card_bij (fun id _ => (c.moves.keyOf? id).getD []) ?_ ?_ ?_).symm
  · intro id hmem
    obtain ⟨word, hword, hkey⟩ := hid id hmem
    rw [List.mem_toFinset, hkey, h.mem_keys_iff]
    exact ⟨id, hword⟩
  · intro id hmem id' hmem' heq
    obtain ⟨word, hword, hkey⟩ := hid id hmem
    obtain ⟨word', hword', hkey'⟩ := hid id' hmem'
    rw [hkey, hkey'] at heq
    obtain rfl : word = word' := heq
    exact hword.unique h.tells.lays.sound hword'
  · intro word hmem
    obtain ⟨id, hword⟩ := h.mem_keys_iff.mp (List.mem_toFinset.mp hmem)
    have hlt := (Cascade.exists_keyed_iff h.tells).mp ⟨word, hword⟩
    refine ⟨id, Finset.mem_range.mpr hlt, ?_⟩
    rw [Moves.keyOf?_of_keyed h.tells.follow hword]
    rfl

end Indexes

/-! ## The search by id -/

namespace Dictionary

variable {a : Agent}

/-- The id of a key is looked up. -/
theorem reverseLookup_of_keyed (h : c.Tells s) {word : List UInt8} (hid : s.Keyed word a.queryId) :
    Dictionary.reverseLookup ⟨some c⟩ a
      = ((a.after { buffer := word } (some (.buffered a.queryId))).1, .ok ()) :=
  reverseLookup_of_some ((Cascade.exists_keyed_iff h).mp ⟨word, hid⟩)
    (SearchState.restore?_of_keyed h.follow hid _)

theorem reverseLookup_of_le (hle : c.numKeys ≤ a.queryId) :
    (Dictionary.reverseLookup ⟨some c⟩ a).2 = .error (.unknownId a.queryId c.numKeys) := by
  rw [reverseLookup_unknown hle]

/-- Entries carry one id exactly when they have the same bytes, the ids are the numbers below the
number of different keys, the search by id gives the key of every such number, and for all other
numbers it fails and says how many keys there are. -/
theorem reverseLookup_inverts {config : Config} (hlimits : ks.WithinLimits)
    (hvalid : config.Valid) :
    ∃ d ks', Dictionary.build ks config = .ok (d, ks') ∧ ks.SameKeys ks'
      ∧ (∀ entry ∈ ks'.entries.toList, ∀ other ∈ ks'.entries.toList,
        entry.id = other.id ↔ entry.bytes = other.bytes)
      ∧ d.numKeys = ks.keys.toFinset.card
      ∧ (∀ id, (∃ entry ∈ ks'.entries.toList, entry.id = id) ↔ id < d.numKeys)
      ∧ (∀ a : Agent, a.queryId < d.numKeys → ∃ a', d.reverseLookup a = (a', .ok ())
        ∧ a'.keyId = a.queryId
        ∧ ∀ entry ∈ ks'.entries.toList, entry.id = a.queryId → a'.key = entry.bytes)
      ∧ ∀ a : Agent, d.numKeys ≤ a.queryId →
        (d.reverseLookup a).2 = .error (.unknownId a.queryId d.numKeys) := by
  obtain ⟨c, s, ks', hbuild, hsame, hindexes⟩ := Dictionary.build_spec hlimits hvalid
  refine ⟨⟨some c⟩, ks', hbuild, hsame, ?_, ?_, ?_, ?_, ?_⟩
  · intro entry hentry other hother
    exact hindexes.id_eq_iff hentry hother
  · rw [← hsame.keys_eq]
    exact hindexes.card_keys.symm
  · intro id
    exact hindexes.exists_entry_iff
  · intro a hlt
    obtain ⟨word, hword⟩ := (Cascade.exists_keyed_iff hindexes.tells).mpr hlt
    refine ⟨_, reverseLookup_of_keyed hindexes.tells hword, rfl, ?_⟩
    intro entry hentry hid
    have hkeyed := (hindexes.keyed_iff _ _).mpr ⟨entry, hentry, rfl, hid⟩
    exact hword.injective hkeyed
  · intro a hle
    exact reverseLookup_of_le hle

/-- A keyset of three entries with two different keys has the ids 0 and 1. -/
theorem reverseLookup_two_keys : ∃ d ks',
    Dictionary.build (.ofList [[98], [97, 0], [98]]) {} = .ok (d, ks')
      ∧ d.numKeys = 2 ∧ (d.reverseLookup { queryId := 1 }).2 = .ok ()
      ∧ (d.reverseLookup { queryId := 2 }).2 = .error (.unknownId 2 2) := by
  have hlimits : (Keyset.ofList [[98], [97, 0], [98]]).WithinLimits := by decide
  have hvalid : ({} : Config).Valid := by decide
  obtain ⟨d, ks', hbuild, _, _, hcard, _, hknown, hunknown⟩ := reverseLookup_inverts hlimits hvalid
  have htwo : d.numKeys = 2 := by
    rw [hcard]
    decide
  refine ⟨d, ks', hbuild, htwo, ?_, ?_⟩
  · obtain ⟨_, heq, _⟩ := hknown { queryId := 1 } (by rw [htwo]; decide)
    rw [heq]
  · rw [hunknown { queryId := 2 } (by rw [htwo]), htwo]

end Dictionary

end Lexicon
