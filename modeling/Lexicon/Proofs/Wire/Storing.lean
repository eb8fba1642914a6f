/-
Lexicon.Proofs.Wire.Storing — what is built can be stored, and is restored as it was.

Everything that is laid out is storable while its counts fit into 32 bits: a list of bits,
a list of values, the tail of some strings, the level of a shape. The reader takes links
without a tail as the sign of another level; `Cascade.build_storable` shows that building
leaves just this sign, since a level either hands its labels on or keeps them itself.
`Dictionary.encode_restores` is the round trip, through streams and through regions.
-/
import Lexicon.Proofs.Cascade.Clearing
import Lexicon.Proofs.Wire.Levels

namespace Lexicon

/-! ## Vectors -/

namespace BitVector

variable {bits : List Bool} {zeros ones : Bool}

/-- The samples that are asked for are bounded, and so are those that are not. -/
theorem size_samples_le (sampled kind : Bool) (bits : List Bool) :
    (if sampled then (samples kind 0 0 bits).toArray else #[]).size ≤ bits.length + 1 := by
  cases sampled with
  | true =>
    have hcount := List.count_le_length (a := kind) (l := bits)
    rw [if_pos rfl, List.size_toArray, length_samples, blocksOf, blocksOf]
    omega
  | false => exact Nat.zero_le _

theorem storable_ofBits (h : bits.length < 2 ^ 32) : (ofBits bits zeros ones).Storable where
  size_lt := h
  ones_le := List.count_le_length
  words := Word.length_pack _ _
  ranks := Or.inl (length_rankRecords _ _ _)
  zeroSamples_lt := by
    have hle := size_samples_le zeros false bits
    change 4 * (if zeros then (samples false 0 0 bits).toArray else #[]).size < 2 ^ 64
    omega
  oneSamples_lt := by
    have hle := size_samples_le ones true bits
    change 4 * (if ones then (samples true 0 0 bits).toArray else #[]).size < 2 ^ 64
    omega

theorem storable_empty : empty.Storable where
  size_lt := by decide
  ones_le := Nat.le_refl 0
  words := rfl
  ranks := Or.inr ⟨rfl, rfl⟩
  zeroSamples_lt := by decide
  oneSamples_lt := by decide

end BitVector

/-- Fewer than `2 ^ 32` values are counted in bits by one word. -/
theorem PackedVector.widthOf_mul_lt {values : List UInt32} (h : values.length < 2 ^ 32) :
    widthOf values * values.length < 2 ^ 64 := by
  have hbits : widthOf values * values.length ≤ 32 * values.length :=
    Nat.mul_le_mul_right _ (widthOf_le values)
  omega

/-- The words of some values have room for them, also the only word of values without bits. -/
theorem PackedVector.storable_ofList {values : List UInt32} (hlength : values.length < 2 ^ 64)
    (hbits : widthOf values * values.length < 2 ^ 64) : (ofList values).Storable := by
  have hsize := size_words_ofList values
  have hroom : widthOf values * values.length
      ≤ 64 * blocksOf 64 (widthOf values * values.length) := le_mul_blocksOf (by decide) _
  have hblocks : 8 * blocksOf 64 (widthOf values * values.length) < 2 ^ 64 := by
    unfold blocksOf
    omega
  refine
    { width_le := widthOf_le values
      size_lt := hlength
      words_lt := ?words_lt
      bits_lt := hbits
      values := ?values
      words_ne := ?words_ne }
  case words_lt =>
    rw [hsize]
    split
    · decide
    · exact hblocks
  case values =>
    rw [hsize, width_ofList, size_ofList]
    split
    · rename_i hzero
      rw [hzero.1, Nat.zero_mul]
      exact Nat.zero_le _
    · exact hroom
  case words_ne =>
    by_cases hnil : values = []
    · exact Or.inl (congrArg List.length hnil)
    · have hpos := List.length_pos_iff.mpr hnil
      refine Or.inr ?_
      rw [hsize]
      by_cases hwidth : widthOf values = 0
      · rw [if_pos ⟨hwidth, hnil⟩]
        decide
      · have hvalues := Nat.mul_pos (Nat.pos_of_ne_zero hwidth) hpos
        rw [if_neg fun h => hwidth h.1]
        omega

/-! ## Tails -/

namespace Tail

theorem storable_empty : empty.Storable where
  size_lt := by decide
  endFlags := BitVector.storable_empty
  flagged := Or.inl rfl
  terminated := Or.inr (Or.inl rfl)

/-- Strings with NUL bytes behind them end in one, and the others have a flag for each byte. -/
theorem storable_ofWritten {mode : TailMode} {written : List (List UInt8)}
    (hne : ∀ w ∈ written, w ≠ []) (h : (written.flatMap (writtenBytes mode)).length < 2 ^ 32) :
    (ofWritten mode written).Storable := by
  cases mode with
  | text =>
    have hflags : written.flatMap (writtenFlags .text) = [] :=
      List.flatMap_eq_nil_iff.mpr fun _ _ => rfl
    refine ⟨Nat.lt_trans h (by decide), ?_, ?_, Or.inr ?_⟩
    · exact BitVector.storable_ofBits (by rw [hflags]; decide)
    · exact Or.inl (congrArg List.length hflags)
    · rcases List.eq_nil_or_concat written with rfl | ⟨front, w, rfl⟩
      · exact Or.inl rfl
      · refine Or.inr ?_
        simp [ofWritten, writtenBytes]
  | binary =>
    have hlength := length_flatMap_writtenFlags hne
    refine ⟨Nat.lt_trans h (by decide), BitVector.storable_ofBits (hlength ▸ h), Or.inr hlength,
      ?_⟩
    by_cases hzero : (written.flatMap (writtenBytes .binary)).length = 0
    · exact Or.inr (Or.inl hzero)
    · exact Or.inl (by rwa [ofWritten, BitVector.size_ofBits, hlength])

variable {mode : TailMode} {strings : List (List UInt8)} {tail : Tail} {positions : List Nat}

theorem storable_ofStrings (h : ofStrings mode strings = .ok (tail, positions))
    (hbytes : (strings.map (·.length + 1)).sum < 2 ^ 32) : tail.Storable := by
  obtain ⟨hne, rfl⟩ := of_ofStrings h
  have hsound := sound_filled (modeFor mode strings) strings
  have hused := used_filled_le (modeFor mode strings) strings
  refine storable_ofWritten ?_ ?_
  · intro w hw
    obtain ⟨item, hitem, rfl⟩ := hsound.mem_written w (List.mem_reverse.mp hw)
    exact hne _ (List.mem_of_getElem? (mem_itemsOf.mp (List.mem_reverse.mp hitem)))
  · rw [← hsound.used_eq]
    omega

/-- The tail of some strings holds the first of them. -/
theorem not_isEmpty_ofStrings (hstrings : strings ≠ [])
    (h : ofStrings mode strings = .ok (tail, positions)) : ¬tail.isEmpty = true := by
  obtain ⟨hne, rfl⟩ := of_ofStrings h
  obtain ⟨string, rest, rfl⟩ := List.exists_cons_of_ne_nil hstrings
  have hsound := sound_filled (modeFor mode (string :: rest)) (string :: rest)
  have hitem : (string.reverse, 0) ∈ itemsOf (string :: rest) := by
    rw [mem_itemsOf, List.reverse_reverse]
    rfl
  obtain ⟨p, hp⟩ := hsound.complete _ (List.mem_reverse.mpr hitem)
  obtain ⟨r, hr, hplaced⟩ := hsound.positions _ hp
  have hmem : r.reverse ∈ string :: rest :=
    List.mem_of_getElem? (mem_itemsOf.mp (List.mem_reverse.mp hr))
  have hpos := List.length_pos_iff.mpr (hne _ hmem)
  have hlength := hplaced.add_length_le
  rw [isEmpty, Array.isEmpty_iff_size_eq_zero]
  intro hzero
  rw [ofWritten, List.size_toArray] at hzero
  omega

end Tail

/-! ## Caches -/

theorem Cache.doubled_le (size wanted : Nat) : doubled size wanted ≤ max size (2 * wanted) := by
  fun_induction doubled size wanted with
  | case1 size h ih => omega
  | case2 size h => omega

theorem Wire.isPowerOfTwo_two_pow (k : Nat) : isPowerOfTwo (2 ^ k) = true := by
  simp [isPowerOfTwo, Nat.log2_two_pow, Nat.shiftLeft_eq]

theorem Level.isPowerOfTwo_slotCount (reading : Reading) (size : CacheSize) (distinct : Nat) :
    Wire.isPowerOfTwo (slotCount reading size distinct) = true := by
  obtain ⟨k, hk⟩ := exists_slotCount_eq reading size distinct
  rw [hk]
  exact Wire.isPowerOfTwo_two_pow k

theorem Level.slotCount_lt {reading : Reading} {distinct : Nat} (size : CacheSize)
    (h : distinct < 2 ^ 30) : slotCount reading size distinct < 2 ^ 32 := by
  have hwanted := Nat.div_le_self distinct size.divisor
  cases reading with
  | forward =>
    have hle := Cache.doubled_le 256 (distinct / size.divisor)
    exact Nat.lt_of_le_of_lt hle (by omega)
  | backward =>
    have hle := Cache.doubled_le 1 (distinct / size.divisor)
    exact Nat.lt_of_le_of_lt hle (by omega)

/-- There are no more different strings than strings. -/
theorem Sorting.distinct_le (xs : List (List UInt8)) : distinct xs ≤ xs.length := by
  have hlength := congrArg List.length (List.flatten_splitBy (· == ·) xs)
  rw [List.length_flatten] at hlength
  have hgroups := List.length_le_sum_of_one_le ((xs.splitBy (· == ·)).map List.length) (by
    intro n hn
    obtain ⟨group, hgroup, rfl⟩ := List.mem_map.mp hn
    exact List.length_pos_iff.mpr (List.ne_nil_of_mem_splitBy hgroup))
  rw [List.length_map, hlength] at hgroups
  exact hgroups

theorem Shape.distinct_le (order : SiblingOrder) (reading : Reading)
    (strings : List (List UInt8 × Weight)) :
    (Shape.ofStrings order reading strings).distinct ≤ strings.length := by
  have hlength := (Shape.sortedOf_perm reading strings).length_eq
  rw [Shape.pendingOf, List.length_map, List.length_zipIdx] at hlength
  have hle := Sorting.distinct_le ((Shape.sortedOf reading strings).map (·.rest))
  rwa [List.length_map, hlength] at hle

/-! ## Levels -/

namespace Level

variable {reading : Reading} {s : Shape} {targets : List Nat} {tail : Tail} {config : Config}
  {first : Bool} {l : Level}

/-- Every link has an extra. -/
theorem length_extras (pieces : List Piece) :
    (pieces.filterMap (·.extra?)).length = (false :: pieces.map (·.isLink)).count true := by
  rw [List.count_cons_of_ne (by decide)]
  induction pieces with
  | nil => rfl
  | cons p pieces ih =>
    cases p with
    | byte b => exact ih
    | link target =>
      rw [List.map_cons, Piece.isLink, List.count_cons_self, ← ih]
      rfl

/-- The flags of the links count the labels that are handed on. -/
theorem ones_links_ofShape : (ofShape reading s targets tail config).links.ones
    = (Cascade.labelsOf reading s).length := by
  show (false :: (shapePieces s targets).map (·.isLink)).count true = _
  rw [List.count_cons_of_ne (by decide), map_isLink_shapePieces, List.map_map,
    List.count_eq_countP, List.countP_map, Cascade.labelsOf, Shape.linkLabels, List.length_map,
    List.length_map, ← List.countP_eq_length_filter]
  congr 1
  funext x
  show (x.2.isLink == true) = x.2.isLink
  cases x.2.isLink <;> rfl

/-- The last child of the root is a node. -/
theorem degree_root_lt (hsound : s.Sound) : s.degree 0 < s.nodes.length := by
  have hpos := hsound.length_pos
  by_contra hle
  obtain ⟨e, he⟩ := Shape.exists_child (s := s) (u := 0) (j := s.degree 0 - 1) (by omega)
  have hlt := hsound.lt_length he
  rw [Shape.firstChild_zero] at hlt
  omega

theorem storable_ofShape (hsound : s.Sound) (hsize : 2 * s.nodes.length + 2 < 2 ^ 32)
    (hdistinct : s.distinct < 2 ^ 30) (htail : tail.Storable) (hconfig : config.Valid) :
    (ofShape reading s targets tail config).Storable (reading == .forward) := by
  have hpos := hsound.length_pos
  have hedges := hsound.length_nodes
  have hlouds : (ofShape reading s targets tail config).louds.size = _ := size_louds_ofShape hsound
  have hnodes : (ofShape reading s targets tail config).numNodes = _ := numNodes_ofShape hsound
  have hlinks : (ofShape reading s targets tail config).links.size = _ := size_links_ofShape hsound
  have hbases : (ofShape reading s targets tail config).bases.size = _ := size_bases_ofShape hsound
  have hextras := List.length_filterMap_le (·.extra?) (shapePieces s targets)
  rw [length_shapePieces] at hextras
  refine
    { louds := BitVector.storable_ofBits (Nat.lt_of_le_of_lt (Nat.le_of_eq hlouds) hsize)
      terminals := ?terminals
      links := BitVector.storable_ofBits (Nat.lt_of_le_of_lt (Nat.le_of_eq hlinks) (by omega))
      extras := ?extras
      tail := htail
      slots_lt := by
        rw [size_cache_ofShape]
        have hslots : slotCount reading config.cache s.distinct < 2 ^ 32 :=
          slotCount_lt config.cache hdistinct
        omega
      slots := by
        rw [size_cache_ofShape]
        exact isPowerOfTwo_slotCount _ _ _
      config := hconfig
      shape := ⟨by omega, BitVector.hasOneSamples_ofBits, ?zeros⟩
      nodes := ⟨hbases.trans hnodes.symm, hlinks.trans hnodes.symm⟩
      extras_size := length_extras (shapePieces s targets)
      flags := ?flags
      rootDegree := by
        rw [rootDegree_ofShape, hnodes]
        exact degree_root_lt hsound }
  case extras =>
    have hcount := Nat.lt_of_le_of_lt hextras (show s.edges.length < 2 ^ 32 by omega)
    exact PackedVector.storable_ofList (Nat.lt_trans hcount (by decide))
      (PackedVector.widthOf_mul_lt hcount)
  case terminals =>
    cases reading with
    | forward => exact BitVector.storable_ofBits (by rw [length_terminalBits]; omega)
    | backward => exact BitVector.storable_empty
  case zeros =>
    intro hfirst
    obtain rfl : reading = .forward := eq_of_beq hfirst
    exact BitVector.hasZeroSamples_ofBits
  case flags =>
    intro hfirst
    obtain rfl : reading = .forward := eq_of_beq hfirst
    rw [hnodes]
    exact ⟨length_terminalBits s, BitVector.hasOneSamples_ofBits⟩

theorem Storable.withoutCache (h : l.Storable first) : l.withoutCache.Storable first :=
  { h with
    slots_lt := by
      rw [size_withoutCache_cache]
      exact h.slots_lt
    slots := by
      rw [size_withoutCache_cache]
      exact h.slots }

end Level

/-! ## Cascades -/

namespace Cascade

variable {config : Config} {reading : Reading} {strings : List (List UInt8 × Weight)}

theorem Storable.withoutCache {first : Bool} {level : Level} {deeper : List Level}
    (h : Storable first level deeper) :
    Storable first level.withoutCache (deeper.map (·.withoutCache)) := by
  induction h with
  | last hlevel hcount hends => exact .last hlevel.withoutCache hcount hends
  | above hlevel hcount hgoes _ ih => exact .above hlevel.withoutCache hcount hgoes ih

/-- The level of some strings can be stored with a tail and a configuration that can. -/
theorem storable_ofStrings {order : SiblingOrder} {targets : List Nat} {tail : Tail}
    (hbytes : bytesOf strings < 2 ^ 30) (hstrings : strings.length < 2 ^ 30) (htail : tail.Storable)
    (hconfig : config.Valid) :
    (Level.ofShape reading (Shape.ofStrings order reading strings) targets tail config).Storable
      (reading == .forward) :=
  Level.storable_ofShape (Shape.ofStrings_sound order reading strings)
    (size_lt order reading hbytes)
    (Nat.lt_of_le_of_lt (Shape.distinct_le order reading strings) hstrings) htail hconfig

/-- The labels that are handed on are fewer than their bytes. -/
theorem length_labelsOf_lt {s : Shape} (h : bytesOf (labelsOf reading s) < 2 ^ 30) :
    (labelsOf reading s).length < 2 ^ 30 := by
  have hcount := List.length_le_sum_of_one_le ((labelsOf reading s).map (·.1.length)) (by
    intro n hn
    obtain ⟨x, hx, rfl⟩ := List.mem_map.mp hn
    exact labelsOf_pos reading s x hx)
  rw [List.length_map] at hcount
  exact Nat.lt_of_le_of_lt hcount h

theorem valid_recordedConfig_none (config : Config) (tail : Tail) :
    (recordedConfig config tail none).Valid :=
  ⟨Nat.le_refl 1, show 1 ≤ 127 by decide⟩

/-- Building as many levels as a configuration may count gives levels that can be stored. -/
theorem build_storable (config : Config) (more : Nat) (reading : Reading)
    (strings : List (List UInt8 × Weight)) (hbytes : bytesOf strings < 2 ^ 30) :
    ∃ c, build config more reading strings
        = .ok (c, (Shape.ofStrings config.order reading strings).ends)
      ∧ (strings.length < 2 ^ 30 → more < Config.maxLevels →
        Storable (reading == .forward) c.top c.deeper ∧ c.top.config.levels ≤ more + 1) := by
  refine build_induction config (motive := fun more reading strings c =>
    strings.length < 2 ^ 30 → more < Config.maxLevels →
      Storable (reading == .forward) c.top c.deeper ∧ c.top.config.levels ≤ more + 1)
    ?alone ?last ?above more reading strings hbytes
  case alone =>
    intro more reading strings hbytes hempty hstrings _
    refine ⟨.last (storable_ofStrings hbytes hstrings Tail.storable_empty
      (valid_recordedConfig_none config .empty)) rfl ?_, Nat.le_add_left 1 more⟩
    rintro ⟨hones, _⟩
    rw [Level.ones_links_ofShape, List.isEmpty_iff.mp hempty] at hones
    exact hones rfl
  case last =>
    intro reading strings tail positions hbytes hlabels htail hstrings _
    have hne := labels_ne_nil reading (Shape.ofStrings config.order reading strings)
    have htwice := sum_succ_le (labelsOf_pos reading (Shape.ofStrings config.order reading strings))
    have hlt := bytesOf_labelsOf_lt config.order reading hbytes
    have hstorable := Tail.storable_ofStrings htail (by omega)
    refine ⟨.last (storable_ofStrings hbytes hstrings hstorable
      (valid_recordedConfig_none config tail)) rfl ?_, Nat.le_refl 1⟩
    rintro ⟨_, hempty⟩
    refine Tail.not_isEmpty_ofStrings ?_ htail hempty
    intro hnil
    exact hlabels (List.isEmpty_iff.mpr (List.map_eq_nil_iff.mp hnil))
  case above =>
    intro more reading strings below hbytes hlabels ih hstrings hmore
    have hlt := bytesOf_labelsOf_lt config.order reading hbytes
    obtain ⟨hbelow, hlevels⟩ := ih (length_labelsOf_lt hlt) (Nat.lt_of_succ_lt hmore)
    have hvalid : (recordedConfig config .empty (some below.top)).Valid :=
      ⟨Nat.le_add_left 1 _, Nat.le_trans (Nat.succ_le_succ hlevels) hmore⟩
    refine ⟨.above (storable_ofStrings hbytes hstrings Tail.storable_empty hvalid) rfl ⟨?_, rfl⟩
      hbelow, Nat.succ_le_succ hlevels⟩
    rw [Level.ones_links_ofShape]
    intro hzero
    exact hlabels (List.isEmpty_iff.mpr (List.length_eq_zero_iff.mp hzero))

end Cascade

/-! ## Dictionaries -/

namespace Dictionary

/-- A dictionary that was built, with or without its caches, is restored as it was: the stored form
gives back every vector, slot and configuration of every level, from a stream however its chunks
are cut and from memory. The restored one is the same value, so it answers alike and is stored in
the same bytes again. -/
theorem encode_restores {ks : Keyset} {config : Config} (hlimits : ks.WithinLimits)
    (hvalid : config.Valid) :
    ∃ d ks', Dictionary.build ks config = .ok (d, ks') ∧ ks.SameKeys ks'
      ∧ ∀ stored, stored = d ∨ stored = d.withoutCache →
        ∃ bytes, stored.encode = .ok bytes
          ∧ (∀ chunks : List (List UInt8), chunks.flatten = bytes → read ⟨chunks⟩ = .ok stored)
          ∧ ofBytes bytes = .ok stored := by
  have hbytes := Keyset.bytesOf_strings_lt hlimits
  obtain ⟨c, hbuild, ⟨hlays, htops⟩, hstorable⟩ := Cascade.build_and
    (Cascade.build_spec config (config.levels - 1) .forward ks.strings hbytes)
    (Cascade.build_storable config (config.levels - 1) .forward ks.strings hbytes)
  obtain ⟨ks', hks', hsame, _⟩ := Dictionary.build_of_tells hvalid hbuild ⟨hlays, htops rfl⟩
  have hcount : config.levels - 1 < Config.maxLevels := by
    have hmax := hvalid.2
    have hmin : 1 ≤ config.levels := hvalid.1
    omega
  obtain ⟨hlevels, _⟩ := hstorable (Keyset.length_strings_lt hlimits) hcount
  have hround : ∀ {c : Cascade}, Cascade.Storable true c.top c.deeper →
      ∃ bytes, (⟨some c⟩ : Dictionary).encode = .ok bytes
        ∧ (∀ chunks : List (List UInt8), chunks.flatten = bytes → read ⟨chunks⟩ = .ok ⟨some c⟩)
        ∧ ofBytes bytes = .ok ⟨some c⟩ :=
    fun {c} h => ⟨c.encode, rfl, fun _ => read_encode h, ofBytes_encode h⟩
  refine ⟨⟨some c⟩, ks', hks', hsame, ?_⟩
  rintro stored (rfl | rfl)
  · exact hround hlevels
  · exact hround (c := c.withoutCache) hlevels.withoutCache

/-- Keys with a NUL byte in a common rest are kept in two levels, cleared, and read back byte by
byte. -/
theorem encode_restores_nul_byte : ∃ d ks' bytes,
    Dictionary.build (.ofList [[97, 0, 98, 99], [100, 0, 98, 99], []]) { levels := 2 }
        = .ok (d, ks')
      ∧ d.withoutCache.encode = .ok bytes
      ∧ read ⟨bytes.map fun b => [b]⟩ = .ok d.withoutCache
      ∧ ofBytes bytes = .ok d.withoutCache := by
  have hlimits : (Keyset.ofList [[97, 0, 98, 99], [100, 0, 98, 99], []]).WithinLimits := by decide
  have hvalid : ({ levels := 2 } : Config).Valid := by decide
  obtain ⟨d, ks', hbuild, _, hround⟩ := encode_restores hlimits hvalid
  obtain ⟨bytes, hbytes, hread, hregion⟩ := hround d.withoutCache (Or.inr rfl)
  refine ⟨d, ks', bytes, hbuild, hbytes, hread _ ?_, hregion⟩
  rw [← List.flatMap_def, List.flatMap_singleton']

end Dictionary

end Lexicon
