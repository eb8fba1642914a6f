/-
Lexicon.Proofs.Search.Exact — the exact search finds the keys and nothing else.

`Dictionary.lookup_exact` is the main statement: a keyset within the limits can be
built with every valid configuration, and whatever an agent asks the dictionary then,
the answer is yes exactly for the keys, with the id that the keyset was given.
-/
import Lexicon.Proofs.Keys
import Lexicon.Proofs.Search.Standing

namespace Lexicon

variable {c : Cascade} {s : Shape} {ks : Keyset}

/-- The first level finds the id of a query that is a key, and no id for another query. -/
theorem Indexes.lookup?_eq (h : Indexes c s ks) (query : List UInt8) :
    ∃ answer, c.moves.lookup? query = some answer ∧ ∀ id, answer = some id ↔ s.Keyed query id := by
  obtain ⟨answer, hanswer, hiff⟩ : ∃ answer,
      (∀ {m : Moves}, m.Follow s → m.lookupFrom? 0 query = some answer)
      ∧ ∀ id, answer = some id ↔ s.Keyed query id := Moves.lookupFrom?_spec h.tells.lays.sound .root
  exact ⟨answer, hanswer h.tells.follow, hiff⟩

/-- The agent after an exact search, and whether its query is a key. -/
theorem Dictionary.lookup_of_answer {a : Agent} {answer : Option Nat}
    (h : c.moves.lookup? a.query = some answer) :
    Dictionary.lookup ⟨some c⟩ a
      = ((a.after a.searchState.reset (answer.map (.front a.query.length))).1,
        .ok (a.after a.searchState.reset (answer.map (.front a.query.length))).2) := by
  apply lookup_of_some
  show SearchState.lookup? _ _ _ = _
  rw [SearchState.lookup?, h]
  rfl

/-- The key of an answer that is the whole query. -/
theorem Agent.key_after_front (a : Agent) (state : SearchState) (id : Nat) :
    (a.after state (some (.front a.query.length id))).1.key = a.query :=
  List.take_length

namespace Dictionary

/-- Every query is answered, with yes if and only if it is a key; the agent then holds the query as
its key, with the id that every entry of that key was given. -/
theorem lookup_exact {config : Config} (hlimits : ks.WithinLimits) (hvalid : config.Valid) :
    ∃ d ks', Dictionary.build ks config = .ok (d, ks') ∧ ks.SameKeys ks'
      ∧ ∀ a : Agent, ∃ a' hit, d.lookup a = (a', .ok hit)
        ∧ (hit = true ↔ a.query ∈ ks.keys)
        ∧ (hit = true → a'.key = a.query ∧ ks'.Assigns a.query a'.keyId) := by
  obtain ⟨c, s, ks', hbuild, hsame, hindexes⟩ := Dictionary.build_spec hlimits hvalid
  refine ⟨⟨some c⟩, ks', hbuild, hsame, ?_⟩
  intro a
  rw [← hsame.keys_eq, hindexes.mem_keys_iff]
  obtain ⟨answer, hanswer, hiff⟩ := hindexes.lookup?_eq a.query
  cases answer with
  | some id =>
    have hkeyed := (hiff id).mp rfl
    refine ⟨_, true, lookup_of_answer hanswer, ?_, ?_⟩
    · exact iff_of_true rfl ⟨id, hkeyed⟩
    · intro _
      exact ⟨a.key_after_front _ id, hindexes.assigns hkeyed⟩
  | none =>
    refine ⟨_, false, lookup_of_answer hanswer, ?_, ?_⟩
    · apply iff_of_false Bool.false_ne_true
      rintro ⟨id, hkeyed⟩
      cases (hiff id).mpr hkeyed
    · intro hfalse
      cases hfalse

/-- A key with a NUL byte is found in a dictionary of three levels, whose leftover strings end by
NUL bytes; the same bytes without the NUL are not. -/
theorem lookup_nul_byte : ∃ d ks',
    Dictionary.build (.ofList [[97, 0], [], [97, 0, 98]]) {} = .ok (d, ks')
      ∧ (d.lookup { query := [97, 0] }).2 = .ok true
      ∧ (d.lookup { query := [97] }).2 = .ok false := by
  have hlimits : (Keyset.ofList [[97, 0], [], [97, 0, 98]]).WithinLimits := by decide
  have hvalid : ({} : Config).Valid := by decide
  obtain ⟨d, ks', hbuild, _, hlookup⟩ := lookup_exact hlimits hvalid
  refine ⟨d, ks', hbuild, ?_, ?_⟩
  · obtain ⟨_, hit, heq, hiff, _⟩ := hlookup { query := [97, 0] }
    rw [heq, hiff.mpr (by decide)]
  · obtain ⟨_, hit, heq, hiff, _⟩ := hlookup { query := [97] }
    rw [heq, Bool.eq_false_iff.mpr (mt hiff.mp (by decide))]

end Dictionary

end Lexicon
