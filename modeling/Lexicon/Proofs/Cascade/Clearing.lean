/-
Lexicon.Proofs.Cascade.Clearing — a cascade with cleared caches tells the same tree.

A cleared slot names a node that no level has, so nothing that a level tells rests on
it (`Level.Lays.withoutCache`). What a link stands for is read from the levels below,
whose caches are cleared too; `build_withoutCache` carries this up the levels as they
are built.
-/
import Lexicon.Proofs.Keys

namespace Lexicon

namespace Level

variable {l : Level} {reading : Reading} {s : Shape} {resolves : Nat → List UInt8 → Prop}

@[simp] theorem size_withoutCache_cache (l : Level) :
    l.withoutCache.cache.size = l.cache.size := by
  simp [withoutCache]

theorem withoutCache_getElem? {k : Nat} {slot : Slot} (h : l.withoutCache.cache[k]? = some slot) :
    ∃ old, l.cache[k]? = some old ∧ slot = old.cleared := by
  simp only [withoutCache, List.getElem?_toArray, List.getElem?_map, Array.getElem?_toList] at h
  obtain ⟨old, hold, heq⟩ := Option.map_eq_some_iff.mp h
  exact ⟨old, hold, heq.symm⟩

/-- A level tells its tree without its cache too. -/
theorem Lays.withoutCache (h : l.Lays reading s resolves) :
    l.withoutCache.Lays reading s resolves :=
  { h with
    cache_pos := by
      rw [size_withoutCache_cache]
      exact h.cache_pos
    cache := by
      intro k slot hslot
      obtain ⟨old, _, rfl⟩ := withoutCache_getElem? hslot
      exact Or.inl ⟨rfl, rfl⟩ }

theorem Tops.withoutCache (h : l.Tops s) : l.withoutCache.Tops s :=
  { h with
    dvd_cache := by
      rw [size_withoutCache_cache]
      exact h.dvd_cache }

end Level

namespace Cascade

/-- Whatever is built tells the tree of its strings without its caches too. -/
theorem build_withoutCache (config : Config) (more : Nat) (reading : Reading)
    (strings : List (List UInt8 × Weight)) (hbytes : bytesOf strings < 2 ^ 30) :
    ∃ c, build config more reading strings
        = .ok (c, (Shape.ofStrings config.order reading strings).ends)
      ∧ c.withoutCache.top.Lays reading (Shape.ofStrings config.order reading strings)
          (Resolves c.withoutCache.top.tail c.withoutCache.deeper)
      ∧ (reading = .forward →
          c.withoutCache.top.Tops (Shape.ofStrings config.order reading strings)) := by
  refine build_induction config (motive := fun _ reading strings c =>
    c.withoutCache.top.Lays reading (Shape.ofStrings config.order reading strings)
        (Resolves c.withoutCache.top.tail c.withoutCache.deeper)
      ∧ (reading = .forward →
          c.withoutCache.top.Tops (Shape.ofStrings config.order reading strings)))
    ?alone ?last ?above more reading strings hbytes
  case alone =>
    intro more reading strings hbytes hempty
    obtain ⟨hlays, htops⟩ := lays_of_resolved hbytes
      (resolved_of_no_labels hempty (Resolves .empty []))
    exact ⟨hlays.withoutCache, fun hreading => (htops hreading).withoutCache⟩
  case last =>
    intro reading strings tail positions hbytes _ htail
    obtain ⟨hlays, htops⟩ := lays_of_resolved hbytes (resolved_of_last hbytes htail)
    exact ⟨hlays.withoutCache, fun hreading => (htops hreading).withoutCache⟩
  case above =>
    rintro more reading strings below hbytes _ ⟨hbelow, _⟩
    have hlabels := bytesOf_labelsOf_lt config.order reading hbytes
    have hresolved : Level.Resolved reading (Shape.ofStrings config.order reading strings) _
        (Resolves .empty below.withoutCache.levels) := resolved_of_below hlabels hbelow
    obtain ⟨hlays, htops⟩ := lays_of_resolved hbytes hresolved
    exact ⟨hlays.withoutCache, fun hreading => (htops hreading).withoutCache⟩

end Cascade

/-- Every keyset within the limits is built, the levels with and without their caches tell one tree,
and it has the keys with the ids of the entries. -/
theorem Dictionary.build_spec_withoutCache {ks : Keyset} {config : Config}
    (hlimits : ks.WithinLimits) (hvalid : config.Valid) :
    ∃ c s ks', Dictionary.build ks config = .ok (⟨some c⟩, ks') ∧ ks.SameKeys ks'
      ∧ Indexes c s ks' ∧ c.withoutCache.Tells s := by
  have hbytes := Keyset.bytesOf_strings_lt hlimits
  obtain ⟨c, hbuild, ⟨hlays, htops⟩, hlays', htops'⟩ := Cascade.build_and
    (Cascade.build_spec config (config.levels - 1) .forward ks.strings hbytes)
    (Cascade.build_withoutCache config (config.levels - 1) .forward ks.strings hbytes)
  obtain ⟨ks', hks', hsame, hindexes⟩ := Dictionary.build_of_tells hvalid hbuild ⟨hlays, htops rfl⟩
  exact ⟨c, _, ks', hks', hsame, hindexes, hlays', htops' rfl⟩

end Lexicon
