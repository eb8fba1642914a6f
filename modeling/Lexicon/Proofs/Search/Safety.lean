/-
Lexicon.Proofs.Search.Safety — no request makes a search leave the levels.

A walk that reads where nothing is, asks for a rank or a position that the index does not
have, does not get on along its query, or does not end within the bits that are there, gives
no answer, and the search then fails with `Fault.corrupt`. A cascade that tells the tree in
which the agent stands comes to an answer (`Dictionary.serve_safe`), and rows of requests
follow by induction (`Dictionary.serveAll_safe`). A dictionary may be stored, restored and
cleared in between; of all these versions there are only two, with caches and without
(`Dictionary.Version.eq_or`), and both tell the tree. The record that all searches share is
never read where nothing is either, for it shows what the suspended search shows
(`Dictionary.serveAll_state_ne_corrupt`).
-/
import Lexicon.Proofs.Cascade.Guarding
import Lexicon.Proofs.Search.Requests
import Lexicon.Proofs.Search.State
import Lexicon.Proofs.Wire.Restoring

namespace Lexicon

/-! ## Rows of requests -/

namespace Dictionary

/-- A request was answered, or refused for a reason that is not with the levels, and the key of the
agent can be taken. -/
def Safe (served : Agent × Except Fault Bool) : Prop :=
  served.2 ≠ .error .corrupt ∧ served.1.KeyDefined

variable {c : Cascade} {s : Shape} {a : Agent}

/-- No request leaves the levels of a cascade that tells the tree in which the agent stands. -/
theorem serve_safe (h : c.Tells s) (ha : a.Stands s) (hkey : a.KeyDefined) (r : Request) :
    Safe (serve ⟨some c⟩ a r) := by
  obtain ⟨served, hserve, hproceeds, hnot⟩ := serve_spec h.lays.sound ha r
  rw [hserve h]
  exact ⟨hnot, hproceeds.keyDefined hkey⟩

/-- A row of requests, each to some cascade that tells the tree, is safe at every one of them. -/
theorem serveAll_safe {schedule : List (Dictionary × Request)} (ha : a.Stands s)
    (hkey : a.KeyDefined)
    (hall : ∀ x ∈ schedule, ∃ c : Cascade, x.1 = ⟨some c⟩ ∧ c.Tells s) :
    ∀ served ∈ serveAll a schedule, Safe served := by
  induction schedule generalizing a with
  | nil => simp [serveAll]
  | cons x schedule ih =>
    obtain ⟨d, r⟩ := x
    obtain ⟨c, rfl, htells⟩ := hall (d, r) List.mem_cons_self
    have hsafe := serve_safe htells ha hkey r
    obtain ⟨_, hstands⟩ := serve_of_tells htells htells ha r
    intro served hserved
    rw [serveAll, List.mem_cons] at hserved
    rcases hserved with rfl | hserved
    · exact hsafe
    · exact ih hstands hsafe.2 (fun y hy => hall y (List.mem_cons_of_mem _ hy)) served hserved

/-! ## Versions of a dictionary -/

/-- What a dictionary is after its caches were cleared, or it was stored and restored from a stream
or a region that goes on behind it, any number of times. -/
inductive Version (d : Dictionary) : Dictionary → Prop
  | built : Version d d
  | cleared {d' : Dictionary} : Version d d' → Version d d'.withoutCache
  | streamed {d' restored : Dictionary} {bytes more : List UInt8} {chunks : List (List UInt8)} :
    Version d d' → d'.encode = .ok bytes → chunks.flatten = bytes ++ more →
    read ⟨chunks⟩ = .ok restored → Version d restored
  | mapped {d' restored : Dictionary} {bytes more : List UInt8} :
    Version d d' → d'.encode = .ok bytes → ofBytes (bytes ++ more) = .ok restored →
    Version d restored

end Dictionary

theorem Level.withoutCache_withoutCache (l : Level) :
    l.withoutCache.withoutCache = l.withoutCache := by
  simp [Level.withoutCache, Slot.cleared]

theorem Cascade.withoutCache_withoutCache (c : Cascade) :
    c.withoutCache.withoutCache = c.withoutCache := by
  simp [Cascade.withoutCache, Level.withoutCache_withoutCache]

namespace Dictionary

/-- Clearing the caches again changes nothing. -/
theorem withoutCache_withoutCache (d : Dictionary) :
    d.withoutCache.withoutCache = d.withoutCache := by
  unfold withoutCache
  simp [Function.comp_def, Cascade.withoutCache_withoutCache]

variable {ks ks' : Keyset} {config : Config} {c : Cascade}

/-- What was built can be stored. -/
theorem storable_of_build (hlimits : ks.WithinLimits) (hvalid : config.Valid)
    (h : Dictionary.build ks config = .ok (⟨some c⟩, ks')) :
    Cascade.Storable true c.top c.deeper := by
  obtain ⟨c', _, hbuild, hstorable⟩ := exists_build_storable hlimits hvalid
  rw [h] at hbuild
  cases hbuild
  exact hstorable

/-- What was built is guarded, and the nodes of the first level can be opened. -/
theorem guarded_of_build (hlimits : ks.WithinLimits) (hvalid : config.Valid)
    (h : Dictionary.build ks config = .ok (⟨some c⟩, ks')) :
    Cascade.Guarded c.top c.deeper ∧ c.top.Opens := by
  obtain ⟨c', hlevels, hguarded, hopens, _⟩ := Cascade.build_guarded config (config.levels - 1)
    .forward ks.strings (Keyset.bytesOf_strings_lt hlimits)
  have hbuild := Cascade.build_of_ends hvalid hlevels
  rw [h] at hbuild
  cases hbuild
  exact ⟨hguarded, hopens rfl⟩

/-- All versions of a dictionary that can be stored are itself or itself without its caches. -/
theorem Version.eq_or (hstorable : Cascade.Storable true c.top c.deeper)
    {d' : Dictionary} (h : Version ⟨some c⟩ d') :
    d' = ⟨some c⟩ ∨ d' = ⟨some c.withoutCache⟩ := by
  have hversion : ∀ {d : Dictionary}, d = ⟨some c⟩ ∨ d = ⟨some c.withoutCache⟩ →
      ∃ c', d = ⟨some c'⟩ ∧ Cascade.Storable true c'.top c'.deeper := by
    rintro d (rfl | rfl)
    · exact ⟨c, rfl, hstorable⟩
    · exact ⟨c.withoutCache, rfl, hstorable.withoutCache⟩
  induction h with
  | built => exact Or.inl rfl
  | cleared _ ih =>
    rcases ih with rfl | rfl
    · exact Or.inr rfl
    · exact Or.inr (withoutCache_withoutCache ⟨some c⟩)
  | streamed _ hbytes hchunks hread ih =>
    obtain ⟨c', rfl, hstorable'⟩ := hversion ih
    obtain rfl := Except.ok.inj hbytes
    rw [read_encode_append hstorable' hchunks] at hread
    rwa [← Except.ok.inj hread]
  | mapped _ hbytes hread ih =>
    obtain ⟨c', rfl, hstorable'⟩ := hversion ih
    obtain rfl := Except.ok.inj hbytes
    rw [ofBytes_encode_append hstorable'] at hread
    rwa [← Except.ok.inj hread]

/-- A row of requests to versions of what was built is safe. -/
theorem serveAll_safe_of_build {d : Dictionary} (hlimits : ks.WithinLimits) (hvalid : config.Valid)
    (hbuild : Dictionary.build ks config = .ok (d, ks')) {a : Agent}
    {schedule : List (Dictionary × Request)} (hfresh : a.searchState.progress = .fresh)
    (hkey : a.KeyDefined) (hall : ∀ x ∈ schedule, Version d x.1) :
    ∀ served ∈ serveAll a schedule, Safe served := by
  obtain ⟨c, s, _, hbuild', _, hindexes, hcleared⟩ := build_spec_withoutCache hlimits hvalid
  rw [hbuild] at hbuild'
  cases hbuild'
  have hstorable := storable_of_build hlimits hvalid hbuild
  refine serveAll_safe (s := s) (Agent.stands_of_fresh hfresh) hkey ?_
  intro x hx
  rcases (hall x hx).eq_or hstorable with hself | hwithout
  · exact ⟨c, hself, hindexes.tells⟩
  · exact ⟨c.withoutCache, hwithout, hcleared⟩

/-- An agent that keeps the whole record does not leave the levels either, nor the buffer and the
history of the record, whatever earlier searches have left there. -/
theorem serveAll_state_ne_corrupt {d : Dictionary} (hlimits : ks.WithinLimits)
    (hvalid : config.Valid) (hbuild : Dictionary.build ks config = .ok (d, ks'))
    {schedule : List (Dictionary × Request)} (hall : ∀ x ∈ schedule, Version d x.1) :
    ∀ served ∈ serveAll ({} : Agent State) schedule, served.2 ≠ .error .corrupt := by
  intro served hserved
  have hsame := serveAll_state schedule
  have hmem := List.mem_map_of_mem (f := fun served : Agent State × Except Fault Bool =>
    (served.2, served.1.key, served.1.keyId)) hserved
  rw [hsame] at hmem
  obtain ⟨served', hserved', heq⟩ := List.mem_map.mp hmem
  rw [← (Prod.mk.inj heq).1]
  exact (serveAll_safe_of_build (a := {}) hlimits hvalid hbuild rfl trivial hall served' hserved').1

/-- Nothing that is asked of an agent leaves the levels. A keyset within the limits is built with
any weights, and the dictionary and all its versions are guarded. Whatever an agent without a
suspended search is asked, in any order and each time of any of the versions, every request comes to
an outcome other than that the levels are corrupt, and after each the last key can be taken. -/
theorem serveAll_never_corrupt {ks : Keyset} {config : Config} (hlimits : ks.WithinLimits)
    (hvalid : config.Valid) :
    ∃ d ks', Dictionary.build ks config = .ok (d, ks') ∧ ks.SameKeys ks'
      ∧ (∀ d', Version d d' →
        ∃ c, d' = ⟨some c⟩ ∧ Cascade.Guarded c.top c.deeper ∧ c.top.Opens)
      ∧ ∀ (a : Agent) (schedule : List (Dictionary × Request)),
        a.searchState.progress = .fresh → a.KeyDefined → (∀ x ∈ schedule, Version d x.1) →
        ∀ served ∈ serveAll a schedule, served.2 ≠ .error .corrupt ∧ served.1.KeyDefined := by
  obtain ⟨c, s, ks', hbuild, hsame, _⟩ := build_spec_withoutCache hlimits hvalid
  obtain ⟨hguarded, hopens⟩ := guarded_of_build hlimits hvalid hbuild
  have hstorable := storable_of_build hlimits hvalid hbuild
  refine ⟨⟨some c⟩, ks', hbuild, hsame, ?_, ?_⟩
  · intro d' hversion
    rcases hversion.eq_or hstorable with rfl | rfl
    · exact ⟨c, rfl, hguarded, hopens⟩
    · exact ⟨c.withoutCache, rfl, hguarded.withoutCache, hopens.withoutCache⟩
  · intro a schedule hfresh hkey hall
    exact serveAll_safe_of_build hlimits hvalid hbuild hfresh hkey hall

/-- A dictionary with weights that are no numbers, the same without its caches, and the same read
back byte by byte take turns. One takes up the search that another began, an id is not there, and a
search state is asked for twice. -/
theorem serveAll_never_corrupt_turns : ∃ d ks' bytes restored,
    Dictionary.build ⟨#[{ bytes := [97, 0, 98, 99], weight := ⟨0x7FC00000⟩ }, { bytes := [] },
        { bytes := [100, 0, 98, 99], weight := ⟨0xFF800000⟩ }, { bytes := [97, 0] }]⟩
        { levels := 2 } = .ok (d, ks')
      ∧ d.encode = .ok bytes ∧ read ⟨bytes.map fun b => [b]⟩ = .ok restored
      ∧ ∀ served ∈ serveAll {} [(d, .setQuery [97, 0, 98]), (restored, .extensionSearch),
          (d.withoutCache, .extensionSearch), (d, .prefixSearch), (restored, .prefixSearch),
          (d, .setQueryId 7), (restored, .reverseLookup), (d, .setQueryId 1),
          (d.withoutCache, .reverseLookup), (restored.withoutCache, .prefixSearch),
          (d, .initState), (d, .lookup)],
        served.2 ≠ .error .corrupt ∧ served.1.KeyDefined := by
  have hlimits : (⟨#[{ bytes := [97, 0, 98, 99], weight := ⟨0x7FC00000⟩ }, { bytes := [] },
      { bytes := [100, 0, 98, 99], weight := ⟨0xFF800000⟩ },
      { bytes := [97, 0] }]⟩ : Keyset).WithinLimits := by decide
  have hvalid : ({ levels := 2 } : Config).Valid := by decide
  obtain ⟨d, ks', hbuild, _, hguarded, hsafe⟩ := serveAll_never_corrupt hlimits hvalid
  obtain ⟨c, rfl, _⟩ := hguarded d .built
  have hchunks : (c.encode.map fun b => [b]).flatten = c.encode ++ [] := by
    rw [← List.flatMap_def, List.flatMap_singleton', List.append_nil]
  have hread := read_encode_append (storable_of_build hlimits hvalid hbuild) hchunks
  have hrestored : Version ⟨some c⟩ ⟨some c⟩ := .streamed .built rfl hchunks hread
  refine ⟨_, ks', c.encode, _, hbuild, rfl, hread, ?_⟩
  refine hsafe {} _ rfl trivial ?_
  intro x hx
  simp only [List.mem_cons, List.not_mem_nil, or_false] at hx
  rcases hx with rfl | rfl | rfl | rfl | rfl | rfl | rfl | rfl | rfl | rfl | rfl | rfl
  all_goals first | exact .built | exact hrestored | exact .cleared .built

end Dictionary

end Lexicon
