/-
Lexicon.Proofs.Keys — building a dictionary gives every key its id.

`Keyset.keys` are the strings of a keyset, `Keyset.Assigns` says that every entry of a
key carries an id. `Dictionary.build_spec` is what all searches start from: a keyset
within the limits of the layout is built with every valid configuration, the entries
keep their strings and weights, and the ids written into them are those of the tree
(`Indexes`), where a key has one id and an id one key.
-/
import Lexicon.Dictionary
import Lexicon.Proofs.Cascade.Walks

namespace Lexicon

namespace Keyset

/-- The strings of the entries; a string may occur more than once. -/
def keys (ks : Keyset) : List (List UInt8) :=
  ks.entries.toList.map (·.bytes)

/-- The bytes and entries are few enough for 32-bit positions. -/
def WithinLimits (ks : Keyset) : Prop :=
  ks.totalLength + ks.size < 2 ^ 30

instance (ks : Keyset) : Decidable ks.WithinLimits :=
  inferInstanceAs (Decidable (_ < _))

/-- Another keyset has the same strings with the same weights, whatever their ids. -/
def SameKeys (ks ks' : Keyset) : Prop :=
  ks'.entries.toList.map (fun entry => (entry.bytes, entry.weight))
    = ks.entries.toList.map fun entry => (entry.bytes, entry.weight)

/-- Every entry of a key carries the given id. -/
def Assigns (ks : Keyset) (key : List UInt8) (id : Nat) : Prop :=
  ∀ entry ∈ ks.entries.toList, entry.bytes = key → entry.id = id

theorem SameKeys.keys_eq {ks ks' : Keyset} (h : ks.SameKeys ks') : ks'.keys = ks.keys := by
  have hfst := congrArg (List.map Prod.fst) h
  rw [List.map_map, List.map_map] at hfst
  exact hfst

/-- The strings that a dictionary is built from. -/
def strings (ks : Keyset) : List (List UInt8 × Weight) :=
  ks.entries.toList.map fun entry => (entry.bytes, entry.weight)

theorem strings_getElem? {ks : Keyset} {i : Nat} {entry : Entry}
    (h : ks.entries.toList[i]? = some entry) :
    ks.strings[i]? = some (entry.bytes, entry.weight) := by
  simp [strings, h]

theorem bytesOf_strings_lt {ks : Keyset} (h : ks.WithinLimits) :
    Cascade.bytesOf ks.strings < 2 ^ 30 := by
  have hbytes : Cascade.bytesOf ks.strings = ks.totalLength := by
    rw [Cascade.bytesOf, strings, List.map_map]
    rfl
  unfold WithinLimits at h
  omega

theorem length_strings_lt {ks : Keyset} (h : ks.WithinLimits) : ks.strings.length < 2 ^ 30 := by
  rw [strings, List.length_map, Array.length_toList]
  exact Nat.lt_of_le_of_lt (Nat.le_add_left _ _) h

theorem sameKeys_withIds {ks : Keyset} {ids : List Nat}
    (h : ids.length = ks.entries.toList.length) :
    ks.SameKeys (ks.withIds ids) := by
  unfold SameKeys withIds
  simp only [List.map_zipWith]
  generalize ks.entries.toList = entries at h
  induction entries generalizing ids with
  | nil => simp
  | cons entry entries ih =>
    cases ids with
    | nil => simp at h
    | cons id ids => simp [ih (by simpa using h)]

theorem mem_withIds {ks : Keyset} {ids : List Nat} {entry : Entry} :
    entry ∈ (ks.withIds ids).entries.toList ↔ ∃ (i : Nat) (old : Entry) (id : Nat),
      ks.entries.toList[i]? = some old ∧ ids[i]? = some id ∧ { old with id } = entry := by
  unfold withIds
  simp only [List.mem_iff_getElem?, List.getElem?_zipWith_eq_some]

/-! ### Taking keys -/

variable {ks ks' : Keyset} {bytes : List UInt8} {weight : Weight}

theorem size_push : (ks.push bytes weight).size = ks.size + 1 :=
  Array.size_push _

theorem totalLength_push :
    (ks.push bytes weight).totalLength = ks.totalLength + bytes.length := by
  have hsum : ∀ numbers : List Nat, sumOf numbers = numbers.sum := fun _ => rfl
  simp [totalLength, push, hsum]

/-- A key is taken as it is unless it is refused. -/
theorem push?_eq_ok_iff : ks.push? bytes weight = .ok ks' ↔
    bytes.length < UInt32.size ∧ ks.size + 1 < UInt32.size ∧ ks.push bytes weight = ks' := by
  unfold push?
  split
  · next hlong => exact iff_of_false nofun fun h => absurd h.1 (Nat.not_lt.mpr hlong)
  · next hshort =>
    split
    · next hfull => exact iff_of_false nofun fun h => absurd h.2.1 (Nat.not_lt.mpr hfull)
    · next hroom =>
      rw [Except.ok.injEq]
      exact ⟨fun h => ⟨Nat.not_le.mp hshort, Nat.not_le.mp hroom, h⟩, fun h => h.2.2⟩

/-- The keys, and the bytes of each of them, can be counted in 32 bits. -/
def Countable (ks : Keyset) : Prop :=
  ks.size < UInt32.size ∧ ∀ key ∈ ks.keys, key.length < UInt32.size

/-- A key that is taken leaves the keyset countable. -/
theorem Countable.push? (h : ks.Countable) (hpush : ks.push? bytes weight = .ok ks') :
    ks'.Countable := by
  obtain ⟨hlength, hsize, rfl⟩ := push?_eq_ok_iff.mp hpush
  refine ⟨size_push ▸ hsize, ?_⟩
  intro key hkey
  have hmem : key ∈ ks.keys ∨ key = bytes := by
    simpa [keys, push] using hkey
  rcases hmem with hmem | rfl
  · exact h.2 key hmem
  · exact hlength

/-- Whatever keys are offered, those that are taken can be counted. -/
theorem Countable.collect (h : ks.Countable) (keys : List (List UInt8)) :
    (ks.collect keys).Countable := by
  induction keys generalizing ks with
  | nil => exact h
  | cons key keys ih =>
    rw [Keyset.collect]
    cases hpush : ks.push? key with
    | ok ks' => exact ih (h.push? hpush)
    | error fault => exact h

/-- A keyset within the limits was within them before its last key came, which was not refused. -/
theorem push?_of_withinLimits (h : (ks.push bytes weight).WithinLimits) :
    ks.WithinLimits ∧ ks.push? bytes weight = .ok (ks.push bytes weight) := by
  unfold WithinLimits at h ⊢
  rw [size_push, totalLength_push] at h
  have hsize : UInt32.size = 2 ^ 32 := rfl
  exact ⟨by omega, push?_eq_ok_iff.mpr ⟨by omega, by omega, rfl⟩⟩

theorem withinLimits_of_foldl {keys : List (List UInt8)}
    (h : (keys.foldl (fun ks key => ks.push key) ks).WithinLimits) : ks.WithinLimits := by
  induction keys generalizing ks with
  | nil => exact h
  | cons key keys ih => exact (push?_of_withinLimits (ih h)).1

/-- No key of a list is refused that stays within the limits as a whole. -/
theorem collect_of_withinLimits {keys : List (List UInt8)}
    (h : (keys.foldl (fun ks key => ks.push key) ks).WithinLimits) :
    keys.foldlM (fun ks key => ks.push? key) ks = .ok (keys.foldl (fun ks key => ks.push key) ks)
      ∧ ks.collect keys = keys.foldl (fun ks key => ks.push key) ks := by
  induction keys generalizing ks with
  | nil => exact ⟨rfl, rfl⟩
  | cons key keys ih =>
    have hpush := (push?_of_withinLimits (withinLimits_of_foldl h)).2
    rw [List.foldlM_cons, Keyset.collect, hpush]
    exact ih h

/-- All three ways to make a keyset of a list agree on one that stays within the limits. -/
theorem ofList?_of_withinLimits {keys : List (List UInt8)} (h : (ofList keys).WithinLimits) :
    ofList? keys = .ok (ofList keys) ∧ collect {} keys = ofList keys :=
  collect_of_withinLimits h

end Keyset

/-- The tree that a cascade tells has the keys of a keyset, with the ids in its entries. -/
structure Indexes (c : Cascade) (s : Shape) (ks : Keyset) : Prop where
  tells : c.Tells s
  keyed_iff : ∀ word id, s.Keyed word id ↔
    ∃ entry ∈ ks.entries.toList, entry.bytes = word ∧ entry.id = id

namespace Indexes

variable {c : Cascade} {s : Shape} {ks : Keyset}

theorem mem_keys_iff (h : Indexes c s ks) {word : List UInt8} :
    word ∈ ks.keys ↔ ∃ id, s.Keyed word id := by
  unfold Keyset.keys
  rw [List.mem_map]
  constructor
  · rintro ⟨entry, hentry, rfl⟩
    exact ⟨entry.id, (h.keyed_iff _ _).mpr ⟨entry, hentry, rfl, rfl⟩⟩
  · rintro ⟨id, hid⟩
    obtain ⟨entry, hentry, hbytes, _⟩ := (h.keyed_iff _ _).mp hid
    exact ⟨entry, hentry, hbytes⟩

theorem assigns (h : Indexes c s ks) {word : List UInt8} {id : Nat} (hid : s.Keyed word id) :
    ks.Assigns word id := by
  intro entry hentry hbytes
  have hid' := (h.keyed_iff _ _).mpr ⟨entry, hentry, hbytes, rfl⟩
  exact hid'.unique h.tells.lays.sound hid

/-- Hits that are the keys of some kind list the keys of that kind with their ids. -/
theorem words_of_hits (h : Indexes c s ks) {kind : List UInt8 → Prop}
    {hits : List (List UInt8 × Nat)}
    (hmem : ∀ word id, (word, id) ∈ hits ↔ kind word ∧ s.Keyed word id) :
    (∀ word, word ∈ hits.map Prod.fst ↔ word ∈ ks.keys ∧ kind word)
      ∧ ∀ hit ∈ hits, ks.Assigns hit.1 hit.2 := by
  refine ⟨?_, ?_⟩
  · intro word
    rw [h.mem_keys_iff, List.mem_map]
    constructor
    · rintro ⟨⟨word, id⟩, hhit, rfl⟩
      obtain ⟨hkind, hkeyed⟩ := (hmem word id).mp hhit
      exact ⟨⟨id, hkeyed⟩, hkind⟩
    · rintro ⟨⟨id, hkeyed⟩, hkind⟩
      exact ⟨(word, id), (hmem word id).mpr ⟨hkind, hkeyed⟩, rfl⟩
  · rintro ⟨word, id⟩ hhit
    exact h.assigns ((hmem word id).mp hhit).2

end Indexes

/-! ## Building -/

namespace Cascade

variable {c : Cascade} {s : Shape}

theorem rank1_terminals (h : c.Tells s) {v : Nat} (hv : v < s.nodes.length) :
    c.top.terminals.rank1 v = Level.keyNumber s v := by
  unfold BitVector.rank1
  rw [h.tops.size_terminals, Nat.min_eq_left (by omega),
    h.tops.terminals_rank1? (Nat.le_of_lt hv)]
  rfl

/-- A string ends at the node that spells it, so that node has the id of a key. -/
theorem keyed_iff_of_strings {order : SiblingOrder} {strings : List (List UInt8 × Weight)}
    {word : List UInt8} {id : Nat} :
    (Shape.ofStrings order .forward strings).Keyed word id ↔
      ∃ (i v : Nat) (weight : Weight), strings[i]? = some (word, weight)
        ∧ (Shape.ofStrings order .forward strings).ends[i]? = some v
        ∧ Level.keyNumber (Shape.ofStrings order .forward strings) v = id := by
  have hsound := Shape.ofStrings_sound order .forward strings
  constructor
  · rintro ⟨x, hx, hat⟩
    have hselect := Shape.keyAt_eq_some_iff.mp hat
    obtain ⟨node, hnode, _⟩ := Shape.exists_node (hsound.lt_length_of_spells hx)
    have hbit := hselect.bit
    rw [Shape.terminalBits_getElem? hnode] at hbit
    have hne : node.ended ≠ [] := by simpa using hbit
    obtain ⟨i, hi⟩ := List.exists_mem_of_ne_nil node.ended hne
    obtain ⟨string, weight, hget, hread⟩ := (Shape.mem_ended_iff hx hnode).mp hi
    obtain rfl : string = word := hread
    obtain ⟨v, hend, hv⟩ := Shape.ends_getElem? order .forward hget
    obtain rfl := hsound.eq_of_spells hv hx
    exact ⟨i, v, weight, hget, hend, hselect.count⟩
  · rintro ⟨i, v, weight, hget, hend, rfl⟩
    obtain ⟨v', hend', hv⟩ := Shape.ends_getElem? order .forward hget
    rw [hend] at hend'
    obtain rfl := Option.some.inj hend'
    obtain ⟨node, hnode, _⟩ := Shape.exists_node (hsound.lt_length_of_spells hv)
    have hi := (Shape.mem_ended_iff hv hnode).mpr ⟨word, weight, hget, rfl⟩
    refine ⟨v, hv, Shape.keyAt_eq_some_iff.mpr ⟨?_, rfl⟩⟩
    rw [Shape.terminalBits_getElem? hnode]
    simpa using List.ne_nil_of_mem hi

/-- The ids that are written into the entries are those of their keys. -/
theorem keyed_iff_mem_withIds {order : SiblingOrder} {ks : Keyset}
    (h : c.Tells (Shape.ofStrings order .forward ks.strings)) {word : List UInt8} {id : Nat} :
    (Shape.ofStrings order .forward ks.strings).Keyed word id ↔
      ∃ entry ∈ (ks.withIds ((Shape.ofStrings order .forward ks.strings).ends.map
        c.top.terminals.rank1)).entries.toList, entry.bytes = word ∧ entry.id = id := by
  have hrank : ∀ {i v : Nat} {entry : Entry}, ks.entries.toList[i]? = some entry →
      (Shape.ofStrings order .forward ks.strings).ends[i]? = some v →
      c.top.terminals.rank1 v
        = Level.keyNumber (Shape.ofStrings order .forward ks.strings) v := by
    intro i v entry hentry hend
    obtain ⟨v', hend', hv⟩ := Shape.ends_getElem? order .forward (Keyset.strings_getElem? hentry)
    rw [hend] at hend'
    obtain rfl := Option.some.inj hend'
    exact rank1_terminals h (h.lays.sound.lt_length_of_spells hv)
  rw [keyed_iff_of_strings]
  constructor
  · rintro ⟨i, v, weight, hget, hend, rfl⟩
    rw [Keyset.strings, List.getElem?_map] at hget
    obtain ⟨entry, hentry, heq⟩ := Option.map_eq_some_iff.mp hget
    have hid : ((Shape.ofStrings order .forward ks.strings).ends.map c.top.terminals.rank1)[i]?
        = some (c.top.terminals.rank1 v) := by simp [hend]
    exact ⟨_, Keyset.mem_withIds.mpr ⟨i, entry, _, hentry, hid, rfl⟩, congrArg Prod.fst heq,
      hrank hentry hend⟩
  · rintro ⟨_, hmem, rfl, rfl⟩
    obtain ⟨i, entry, id, hentry, hid, rfl⟩ := Keyset.mem_withIds.mp hmem
    rw [List.getElem?_map] at hid
    obtain ⟨v, hend, rfl⟩ := Option.map_eq_some_iff.mp hid
    have hget := Keyset.strings_getElem? hentry
    exact ⟨i, v, entry.weight, hget, hend, (hrank hentry hend).symm⟩

/-- The levels of the keys of a keyset within the limits tell the tree of the keys. -/
theorem exists_build_tells {ks : Keyset} (config : Config) (more : Nat)
    (hlimits : ks.WithinLimits) :
    ∃ c, build config more .forward ks.strings
        = .ok (c, (Shape.ofStrings config.order .forward ks.strings).ends)
      ∧ c.Tells (Shape.ofStrings config.order .forward ks.strings) := by
  obtain ⟨c, hbuild, hlays, htops⟩ :=
    build_spec config more .forward ks.strings (Keyset.bytesOf_strings_lt hlimits)
  exact ⟨c, hbuild, hlays, htops rfl⟩

/-- A valid configuration is accepted, and the entries get the counts at the nodes where they end. -/
theorem build_of_ends {config : Config} {ks : Keyset} {ends : List Nat} (hvalid : config.Valid)
    (h : build config (config.levels - 1) .forward ks.strings = .ok (c, ends)) :
    Dictionary.build ks config = .ok (⟨some c⟩, ks.withIds (ends.map c.top.terminals.rank1)) := by
  unfold Keyset.strings at h
  simp only [Dictionary.build, ofKeyset, Config.check, if_pos hvalid, h]
  rfl

end Cascade

/-- Numbers that are written to the entries, one for each, leave the keys as they are. -/
theorem Keyset.sameKeys_withIds_ends (ks : Keyset) (order : SiblingOrder) (number : Nat → Nat) :
    ks.SameKeys (ks.withIds ((Shape.ofStrings order .forward ks.strings).ends.map number)) := by
  apply Keyset.sameKeys_withIds
  rw [List.length_map, Shape.length_ends]
  exact List.length_map _

/-- What holds of the levels of the keys holds of the levels of the dictionary. -/
theorem Dictionary.exists_build {ks : Keyset} {config : Config} {motive : Cascade → Prop}
    (hvalid : config.Valid)
    (h : ∃ c, Cascade.build config (config.levels - 1) .forward ks.strings
        = .ok (c, (Shape.ofStrings config.order .forward ks.strings).ends) ∧ motive c) :
    ∃ c ks', Dictionary.build ks config = .ok (⟨some c⟩, ks') ∧ ks.SameKeys ks' ∧ motive c := by
  obtain ⟨c, hbuild, hmotive⟩ := h
  exact ⟨c, _, Cascade.build_of_ends hvalid hbuild, ks.sameKeys_withIds_ends _ _, hmotive⟩

/-- A cascade that tells the tree of the keys makes a dictionary of them. -/
theorem Dictionary.build_of_tells {c : Cascade} {ks : Keyset} {config : Config}
    (hvalid : config.Valid)
    (hbuild : Cascade.build config (config.levels - 1) .forward ks.strings
      = .ok (c, (Shape.ofStrings config.order .forward ks.strings).ends))
    (htells : c.Tells (Shape.ofStrings config.order .forward ks.strings)) :
    ∃ ks', Dictionary.build ks config = .ok (⟨some c⟩, ks') ∧ ks.SameKeys ks'
      ∧ Indexes c (Shape.ofStrings config.order .forward ks.strings) ks' := by
  refine ⟨_, Cascade.build_of_ends hvalid hbuild, ks.sameKeys_withIds_ends _ _, htells, ?_⟩
  intro word id
  exact Cascade.keyed_iff_mem_withIds htells

/-- Every keyset within the limits is built, and its entries get the ids of their keys. -/
theorem Dictionary.build_spec {ks : Keyset} {config : Config} (hlimits : ks.WithinLimits)
    (hvalid : config.Valid) :
    ∃ c s ks', Dictionary.build ks config = .ok (⟨some c⟩, ks') ∧ ks.SameKeys ks'
      ∧ Indexes c s ks' := by
  obtain ⟨c, hbuild, htells⟩ := Cascade.exists_build_tells config (config.levels - 1) hlimits
  obtain ⟨ks', hks', hsame, hindexes⟩ := Dictionary.build_of_tells hvalid hbuild htells
  exact ⟨c, _, ks', hks', hsame, hindexes⟩

end Lexicon
