/-
Lexicon.Proofs.Wire.Accepting — what is accepted as a stored dictionary can be stored again.

For every part of a level, on any bytes: two sources agree on it (`AgreesAt`), and a value
that is found can be stored, and stands in the bytes up to the leeway that its stored form
leaves. A level is followed by another one as its links and its tail say, so the levels that
are found count themselves (`Cascade.Storable`). Each level takes some bytes, so the number
of bytes is fuel enough for the levels in them and the fuel does not show
(`agreesAt_levels`, by induction on the fuel).
-/
import Lexicon.Proofs.Wire.Accord

namespace Lexicon

namespace Wire

variable {σ τ : Type} [ByteSource σ] [FiniteSource σ] [ByteSource τ] [FiniteSource τ]
  {position : Nat} {front rest : List UInt8}

/-! ## Arrays -/

theorem dvd_stored_blob {bytes stored : List UInt8} (h : Stored (blobStretches bytes) stored) :
    8 ∣ stored.length := by
  rw [h.length_eq]
  exact dvd_length_blob bytes

theorem agreesAt_words (hposition : 8 ∣ position) :
    AgreesAt position front rest (readWords : Reader σ (Array Word))
      (readWords : Reader τ (Array Word))
      fun words stored => 8 * words.size < 2 ^ 64
        ∧ Stored (blobStretches (bytes64 words.toList)) stored := by
  refine agreesAt_records hposition (Nat.dvd_refl 8) ?_
  intro group hgroup
  have hlt := ofLittleEndian_lt group
  rw [hgroup] at hlt
  have hnumber : (ofLittleEndian group).toUInt64.toNat = ofLittleEndian group :=
    UInt64.toNat_ofNat_of_lt hlt
  rw [hnumber, ← hgroup]
  exact littleEndian_ofLittleEndian group

/-- Four bytes are written again from the number that they make. -/
theorem littleEndian_toUInt32 {bytes : List UInt8} (h : bytes.length = 4) :
    littleEndian 4 (ofLittleEndian bytes).toUInt32.toNat = bytes := by
  have hlt := ofLittleEndian_lt bytes
  rw [h] at hlt
  have hnumber : (ofLittleEndian bytes).toUInt32.toNat = ofLittleEndian bytes :=
    UInt32.toNat_ofNat_of_lt hlt
  rw [hnumber, ← h]
  exact littleEndian_ofLittleEndian bytes

theorem agreesAt_numbers (hposition : 8 ∣ position) :
    AgreesAt position front rest (readNumbers : Reader σ (Array UInt32))
      (readNumbers : Reader τ (Array UInt32))
      fun numbers stored => 4 * numbers.size < 2 ^ 64
        ∧ Stored (blobStretches (bytes32 numbers.toList)) stored :=
  agreesAt_records hposition (by decide) fun _ hgroup => littleEndian_toUInt32 hgroup

/-- Twelve bytes are written again from the three numbers that they make. -/
theorem bytes32_triple {bytes : List UInt8} (h : bytes.length = 12) :
    bytes32 [(triple bytes).1, (triple bytes).2.1, (triple bytes).2.2] = bytes := by
  have hnumber : ∀ start : Nat, start + 4 ≤ 12 →
      littleEndian 4 (ofLittleEndian ((bytes.drop start).take 4)).toUInt32.toNat
        = (bytes.drop start).take 4 := by
    intro start hstart
    refine littleEndian_toUInt32 (List.length_take_of_le ?_)
    rw [List.length_drop]
    omega
  have hlast : (bytes.drop 8).take 4 = bytes.drop 8 := List.take_of_length_le (by simp [h])
  have hsplit : ∀ start : Nat, (bytes.drop start).take 4 ++ bytes.drop (start + 4)
      = bytes.drop start := by
    intro start
    rw [← List.drop_drop]
    exact List.take_append_drop 4 _
  simp only [bytes32, triple, List.flatMap_cons, List.flatMap_nil, List.append_nil]
  rw [hnumber 0 (by decide), hnumber 4 (by decide), hnumber 8 (by decide), hlast, hsplit 4,
    hsplit 0, List.drop_zero]

/-- A blob of records of three numbers is found as records of these numbers. -/
theorem agreesAt_triples {α : Type} {fields : α → List UInt32} {make : List UInt8 → α}
    (hposition : 8 ∣ position)
    (hmake : ∀ bytes, fields (make bytes)
      = [(triple bytes).1, (triple bytes).2.1, (triple bytes).2.2]) :
    AgreesAt position front rest
      (readBlob 12 4 >>= fun groups => pure (groups.map make).toArray : Reader σ (Array α))
      (readBlob 12 4 >>= fun groups => pure (groups.map make).toArray : Reader τ (Array α))
      fun items stored => 12 * items.size < 2 ^ 64
        ∧ Stored (blobStretches (bytes32 (items.toList.flatMap fields))) stored := by
  simp only [bytes32_flatMap]
  refine agreesAt_records hposition (by decide) ?_
  intro group hgroup
  rw [hmake]
  exact bytes32_triple hgroup

theorem agreesAt_ranks (hposition : 8 ∣ position) :
    AgreesAt position front rest (readRanks : Reader σ (Array RankRecord))
      (readRanks : Reader τ (Array RankRecord))
      fun ranks stored => 12 * ranks.size < 2 ^ 64
        ∧ Stored (blobStretches (bytes32 (ranks.toList.flatMap (·.fields)))) stored :=
  agreesAt_triples hposition fun _ => rfl

theorem agreesAt_slots (hposition : 8 ∣ position) :
    AgreesAt position front rest (readSlots : Reader σ (Array Slot))
      (readSlots : Reader τ (Array Slot))
      fun slots stored => 12 * slots.size < 2 ^ 64
        ∧ Stored (blobStretches (bytes32 (slots.toList.flatMap (·.fields)))) stored :=
  agreesAt_triples hposition fun _ => rfl

/-! ## Vectors -/

theorem agreesAt_bitVector (hposition : 8 ∣ position) :
    AgreesAt position front rest (readBitVector : Reader σ BitVector)
      (readBitVector : Reader τ BitVector)
      fun v stored => v.Storable ∧ Stored v.stretches stored := by
  refine (agreesAt_words hposition).bind ?_
  rintro words s₁ _ _ ⟨_, h₁⟩
  refine (agreesAt_number 4).bind ?_
  rintro size s₂ _ _ ⟨hsize, h₂⟩
  refine (agreesAt_number 4).bind ?_
  rintro ones s₃ _ _ ⟨_, h₃⟩
  refine AgreesAt.require trivial fun hones => ?_
  refine AgreesAt.require trivial fun hwords => ?_
  have hd₁ := dvd_stored_blob h₁
  have hl₂ := length_stored_number h₂
  have hl₃ := length_stored_number h₃
  refine (agreesAt_ranks (by omega)).bind ?_
  rintro ranks s₄ _ _ ⟨_, h₄⟩
  refine AgreesAt.require trivial fun hranks => ?_
  have hd₄ := dvd_stored_blob h₄
  refine (agreesAt_numbers (by omega)).bind ?_
  rintro zeroSamples s₅ _ _ ⟨hzeros, h₅⟩
  have hd₅ := dvd_stored_blob h₅
  refine (agreesAt_numbers (by omega)).bind_pure _ ?_
  rintro oneSamples s₆ ⟨hsamples, h₆⟩
  exact ⟨⟨hsize, hones, hwords, hranks, hzeros, hsamples⟩,
    h₁.append (h₂.append (h₃.append (h₄.append (h₅.append h₆))))⟩

theorem agreesAt_packedVector (hposition : 8 ∣ position) :
    AgreesAt position front rest (readPackedVector : Reader σ PackedVector)
      (readPackedVector : Reader τ PackedVector)
      fun v stored => v.Storable ∧ Stored v.stretches stored := by
  refine (agreesAt_words hposition).bind ?_
  rintro words s₁ _ _ ⟨hwords, h₁⟩
  refine (agreesAt_number 4).bind ?_
  rintro width s₂ _ _ ⟨_, h₂⟩
  refine AgreesAt.require trivial fun hwidth => ?_
  refine (agreesAt_number 4).bind ?_
  rintro mask s₃ _ _ ⟨_, h₃⟩
  refine AgreesAt.require trivial fun hmask => ?_
  refine (agreesAt_number 8).bind ?_
  rintro size s₄ _ _ ⟨hsize, h₄⟩
  by_cases hbits : 0x10000000000000000 ≤ width * size
  · rw [if_pos hbits, if_pos hbits]
    exact fun _ _ _ _ => .refused trivial
  rw [if_neg hbits, if_neg hbits]
  refine AgreesAt.require trivial fun hvalues => AgreesAt.pure ?_
  subst hmask
  exact ⟨⟨hwidth, hsize, hwords, Nat.lt_of_not_le hbits, hvalues.1, hvalues.2⟩,
    h₁.append (h₂.append (h₃.append (h₄.append .nil)))⟩

theorem dvd_stored_bitVector {v : BitVector} {stored : List UInt8} (h : Stored v.stretches stored) :
    8 ∣ stored.length := by
  rw [h.length_eq, List.flatMap_def, v.map_written]
  exact dvd_length_bitVector v

/-- A bit vector is never stored in no bytes, since its size is. -/
theorem length_stored_bitVector_pos {v : BitVector} {stored : List UInt8}
    (h : Stored v.stretches stored) : 0 < stored.length := by
  rw [h.length_eq, List.flatMap_def, v.map_written, v.length_pieces, BitVector.wireSize]
  omega

theorem dvd_stored_packedVector {v : PackedVector} {stored : List UInt8}
    (h : Stored v.stretches stored) : 8 ∣ stored.length := by
  rw [h.length_eq, List.flatMap_def, v.map_written]
  exact dvd_length_packedVector v

theorem agreesAt_tail (hposition : 8 ∣ position) :
    AgreesAt position front rest (readTail : Reader σ Tail) (readTail : Reader τ Tail)
      fun t stored => t.Storable ∧ Stored t.stretches stored := by
  refine agreesAt_bytes.bind ?_
  rintro bytes s₁ _ _ ⟨hbytes, h₁⟩
  have hd₁ := dvd_stored_blob h₁
  refine (agreesAt_bitVector (by omega)).bind ?_
  rintro endFlags s₂ _ _ ⟨hflags, h₂⟩
  refine AgreesAt.require trivial fun hflagged => ?_
  refine AgreesAt.require trivial fun hterminated => AgreesAt.pure ?_
  rw [List.append_nil]
  exact ⟨⟨hbytes, hflags, hflagged, hterminated⟩, h₁.append h₂⟩

theorem dvd_stored_tail {t : Tail} {stored : List UInt8} (h : Stored t.stretches stored) :
    8 ∣ stored.length := by
  rw [h.length_eq, List.flatMap_def, t.map_written]
  exact dvd_length_tail t

end Wire

/-! ## The configuration -/

/-- A flag that was found is that of the value found, or zero for the default. -/
theorem flag_of_find {α : Type} {flagOf : α → UInt32} {values : List α} {default value : α}
    {flag : UInt32}
    (h : (if flag = 0 then some default else values.find? (flagOf · == flag)) = some value) :
    flag = flagOf value ∨ (flag = 0 ∧ value = default) := by
  split at h
  · exact Or.inr ⟨‹_›, (Option.some.inj h).symm⟩
  · have hfound := List.find?_some h
    exact Or.inl (eq_of_beq hfound).symm

namespace Config

/-- A word that is accepted has no unused bits, and each of its fields is a flag or, for the
default, zero. -/
theorem ofWord?_eq_some {word : UInt32} {c : Config} (h : ofWord? word = some c) :
    word &&& 0xFFF00000 = 0
      ∧ c.levels = (if (word &&& 0x7F).toNat = 0 then defaultLevels else (word &&& 0x7F).toNat)
      ∧ (word &&& 0xF80 = c.cache.flag ∨ (word &&& 0xF80 = 0 ∧ c.cache = .normal))
      ∧ (word &&& 0xF000 = c.tail.flag ∨ (word &&& 0xF000 = 0 ∧ c.tail = .text))
      ∧ (word &&& 0xF0000 = c.order.flag ∨ (word &&& 0xF0000 = 0 ∧ c.order = .weight)) := by
  unfold ofWord? at h
  split at h
  · cases h
  rename_i hunused
  simp only [Option.bind_eq_bind, Option.bind_eq_some_iff, Option.some.injEq] at h
  obtain ⟨cache, hcache, tail, htail, order, horder, rfl⟩ := h
  exact ⟨not_not.mp hunused, rfl, flag_of_find hcache, flag_of_find htail, flag_of_find horder⟩

theorem ofWord_eq_ok_iff {word : UInt32} {c : Config} :
    ofWord word = .ok c ↔ ofWord? word = some c := by
  unfold ofWord
  cases ofWord? word <;> simp

/-- The levels of a word that is accepted are at most what its field can say, and not zero. -/
theorem valid_of_ofWord {word : UInt32} {c : Config} (h : ofWord word = .ok c) : c.Valid := by
  obtain ⟨_, hlevels, _⟩ := ofWord?_eq_some (ofWord_eq_ok_iff.mp h)
  have hle : (word &&& 0x7F).toNat ≤ 127 := by
    rw [UInt32.toNat_and]
    exact Nat.and_le_right
  rw [Valid, hlevels, minLevels, maxLevels, defaultLevels]
  split <;> omega

/-- A word that is accepted says the configuration that it is read as. -/
theorem saidBy_of_ofWord {word : UInt32} {c : Config} (h : ofWord word = .ok c) :
    c.SaidBy word := by
  obtain ⟨hunused, hlevels, hcache, htail, horder⟩ := ofWord?_eq_some (ofWord_eq_ok_iff.mp h)
  refine ⟨hunused, ?_⟩
  simp only [fieldMasks, List.forall_mem_cons]
  refine ⟨?_, ?_, ?_, ?_, fun _ hnil => nomatch hnil⟩
  · rw [word_and_levels, word_and_levels, hlevels]
    by_cases hzero : (word &&& 0x7F).toNat = 0
    · rw [if_pos hzero]
      exact Or.inr ⟨UInt32.toNat_inj.mp hzero, rfl⟩
    · rw [if_neg hzero, Nat.toUInt32_eq, UInt32.ofNat_toNat, UInt32.and_assoc, UInt32.and_self]
      exact Or.inl rfl
  · rw [word_and_cache, word_and_cache]
    exact hcache.imp_right fun hdefault => ⟨hdefault.1, congrArg CacheSize.flag hdefault.2⟩
  · rw [word_and_tail, word_and_tail]
    exact htail.imp_right fun hdefault => ⟨hdefault.1, congrArg TailMode.flag hdefault.2⟩
  · rw [word_and_order, word_and_order]
    exact horder.imp_right fun hdefault => ⟨hdefault.1, congrArg SiblingOrder.flag hdefault.2⟩

theorem isOfContents_of_ofWord {word : UInt32} {fault : Fault} (h : ofWord word = .error fault) :
    fault.IsOfContents := by
  unfold ofWord at h
  cases hword : ofWord? word with
  | none =>
    rw [hword] at h
    cases h
    trivial
  | some c =>
    rw [hword] at h
    cases h

end Config

/-! ## Levels -/

namespace Cascade

/-- What stands below a level that can be stored: nothing, or levels that can be. -/
inductive StorableBelow (more : Prop) : List Level → Prop
  | none : ¬more → StorableBelow more []
  | some {next : Level} {deeper : List Level} : more → Storable false next deeper →
    StorableBelow more (next :: deeper)

theorem Storable.of_below {first : Bool} {level : Level} {below : List Level}
    (h : level.Storable first)
    (hbelow : StorableBelow (level.links.ones ≠ 0 ∧ level.tail.isEmpty = true) below)
    (hcount : level.config.levels = (below.head?.map (·.config.levels)).getD 0 + 1) :
    Storable first level below := by
  cases hbelow with
  | none hends => exact .last h hcount hends
  | some hgoes hnext => exact .above h hcount hgoes hnext

/-- The stretches of the levels below a level. -/
def stretchesBelow : List Level → List Stretch
  | [] => []
  | next :: deeper => levelStretches next deeper

theorem levelStretches_eq (level : Level) (below : List Level) : levelStretches level below
    = level.frontStretches ++ (stretchesBelow below ++ level.backStretches) := by
  cases below <;> rfl

end Cascade

namespace Wire

variable {σ τ : Type} [ByteSource σ] [FiniteSource σ] [ByteSource τ] [FiniteSource τ]
  {position fuel fuel' : Nat} {front rest : List UInt8} {first : Bool}

/-- A reader that is chosen by a condition, with what follows it under either branch. -/
theorem AgreesAt.ite_bind {α β : Type} {condition : Prop} [Decidable condition]
    {yes no : Reader σ α} {yes' no' : Reader τ α} {next : α → Reader σ β} {next' : α → Reader τ β}
    {post : α → List UInt8 → Prop} {after : β → List UInt8 → Prop}
    (h : AgreesAt position front rest (if condition then yes else no)
      (if condition then yes' else no') post)
    (hnext : ∀ value stored left, front = stored ++ left → post value stored →
      AgreesAt (position + stored.length) left rest (next value) (next' value)
        fun result more => after result (stored ++ more)) :
    AgreesAt position front rest (if condition then yes >>= next else no >>= next)
      (if condition then yes' >>= next' else no' >>= next') after := by
  rw [← apply_ite (· >>= next), ← apply_ite (· >>= next')]
  exact h.bind hnext

/-- Behind the check of a level its parts are known to fit each other. -/
theorem AgreesAt.checkLevel {β : Type} {held : Nat} {level : Level} {next : Unit → Reader σ β}
    {next' : Unit → Reader τ β} {after : β → List UInt8 → Prop}
    (h : (4 ≤ level.louds.size ∧ level.louds.hasOneSamples = true
        ∧ (first = true → level.louds.hasZeroSamples = true)) →
      (level.bases.size = level.numNodes ∧ level.links.size = level.numNodes) →
      level.extras.size = level.links.ones →
      (first = true → level.terminals.size = level.numNodes + 1
        ∧ level.terminals.hasOneSamples = true) →
      level.rootDegree < level.numNodes → level.config.levels = held →
      AgreesAt position front rest (next ()) (next' ()) after) :
    AgreesAt position front rest (Wire.checkLevel first held level >>= next)
      (Wire.checkLevel first held level >>= next') after := by
  simp only [Wire.checkLevel, bind_assoc]
  refine AgreesAt.require trivial fun hshape => ?_
  refine AgreesAt.require trivial fun hnodes => ?_
  refine AgreesAt.require trivial fun hextras => ?_
  refine AgreesAt.require trivial fun hflags => ?_
  refine AgreesAt.require trivial fun hroot => ?_
  exact AgreesAt.require trivial fun hcount => h hshape hnodes hextras hflags hroot hcount

/-- What is known of a level that was found with those below it. -/
def LevelsFound (first : Bool) (found : Level × List Level) (stored : List UInt8) : Prop :=
  Cascade.Storable first found.1 found.2 ∧ Stored (Cascade.levelStretches found.1 found.2) stored

/-- The levels below a level, if there are more. -/
theorem agreesAt_below {more : Prop} [Decidable more]
    (h : more → AgreesAt position front rest (readLevels fuel false : Reader σ _)
      (readLevels fuel' false : Reader τ _) (LevelsFound false)) :
    AgreesAt position front rest
      (if more then (fun (next, deeper) => next :: deeper) <$> (readLevels fuel false : Reader σ _)
        else pure [])
      (if more then (fun (next, deeper) => next :: deeper) <$> (readLevels fuel' false : Reader τ _)
        else pure [])
      fun below stored => Cascade.StorableBelow more below
        ∧ Stored (Cascade.stretchesBelow below) stored := by
  by_cases hmore : more
  · rw [if_pos hmore, if_pos hmore, map_eq_pure_bind, map_eq_pure_bind]
    refine (h hmore).bind_pure _ ?_
    rintro ⟨next, deeper⟩ stored ⟨hstorable, hstored⟩
    exact ⟨.some hmore hstorable, hstored⟩
  · rw [if_neg hmore, if_neg hmore]
    exact AgreesAt.pure ⟨.none hmore, .nil⟩

theorem dvd_stored_below {below : List Level} {stored : List UInt8}
    (h : Stored (Cascade.stretchesBelow below) stored) : 8 ∣ stored.length := by
  rw [h.length_eq, List.flatMap_def]
  cases below with
  | nil => exact Nat.dvd_zero 8
  | cons next deeper =>
    rw [Cascade.stretchesBelow, Cascade.map_written_levels]
    exact dvd_length_levels next deeper

/-- The word of a configuration is accepted as a configuration that it says. -/
theorem agreesAt_code {β : Type} {next : Config → Reader σ β} {next' : Config → Reader τ β}
    {after : β → List UInt8 → Prop}
    (h : ∀ config stored left, front = stored ++ left → config.Valid →
      Stored [.code config] stored →
      AgreesAt (position + stored.length) left rest (next config) (next' config)
        fun result more => after result (stored ++ more)) :
    AgreesAt position front rest
      (readNumber 4 >>= fun n => (liftM (Config.ofWord n.toUInt32) : Reader σ Config) >>= next)
      (readNumber 4 >>= fun n => (liftM (Config.ofWord n.toUInt32) : Reader τ Config) >>= next')
      after := by
  refine (agreesAt_number 4).bind ?_
  rintro n stored left hleft ⟨hn, hstored⟩
  refine AgreesAt.lift (fun _ => Config.isOfContents_of_ofWord) fun config hconfig => ?_
  refine h config stored left hleft (Config.valid_of_ofWord hconfig) ?_
  have hword : n.toUInt32.toNat = n := UInt32.toNat_ofNat_of_lt hn
  rw [stored_number hstored, ← hword]
  exact Stored.single (.code (Config.saidBy_of_ofWord hconfig))

/-! ## Levels in levels -/

/-- A level agrees on whatever bytes, if the levels below it agree on fewer. -/
theorem agreesAt_level (hposition : 8 ∣ position)
    (hbelow : ∀ {position' : Nat} {left : List UInt8}, 8 ∣ position' →
      left.length < front.length →
      AgreesAt position' left rest (readLevels fuel false : Reader σ _)
        (readLevels fuel' false : Reader τ _) (LevelsFound false)) :
    AgreesAt position front rest (readLevels (fuel + 1) first : Reader σ (Level × List Level))
      (readLevels (fuel' + 1) first : Reader τ (Level × List Level)) (LevelsFound first) := by
  rw [readLevels, readLevels]
  refine (agreesAt_bitVector hposition).bind ?_
  rintro louds s₁ left₁ hleft₁ ⟨hlouds, h₁⟩
  have hd₁ := dvd_stored_bitVector h₁
  refine (agreesAt_bitVector (by omega)).bind ?_
  rintro terminals s₂ left₂ hleft₂ ⟨hterminals, h₂⟩
  have hd₂ := dvd_stored_bitVector h₂
  refine (agreesAt_bitVector (by omega)).bind ?_
  rintro links s₃ left₃ hleft₃ ⟨hlinks, h₃⟩
  have hd₃ := dvd_stored_bitVector h₃
  refine agreesAt_bytes.bind ?_
  rintro bases s₄ left₄ hleft₄ ⟨_, h₄⟩
  have hd₄ := dvd_stored_blob h₄
  refine (agreesAt_packedVector (by omega)).bind ?_
  rintro extras s₅ left₅ hleft₅ ⟨hextras, h₅⟩
  have hd₅ := dvd_stored_packedVector h₅
  refine (agreesAt_tail (by omega)).bind ?_
  rintro tail s₆ left₆ hleft₆ ⟨htail, h₆⟩
  have hd₆ := dvd_stored_tail h₆
  -- The parts before the next level took some bytes, so it has fewer.
  have hshort : left₆.length < front.length := by
    have hpos := length_stored_bitVector_pos h₁
    simp only [hleft₁, hleft₂, hleft₃, hleft₄, hleft₅, hleft₆, List.length_append]
    omega
  refine (agreesAt_below fun _ => hbelow (by omega) hshort).ite_bind ?_
  rintro below s₇ _ _ ⟨hstorable, h₇⟩
  have hd₇ := dvd_stored_below h₇
  refine (agreesAt_slots (by omega)).bind ?_
  rintro cache s₈ _ _ ⟨hslots, h₈⟩
  refine AgreesAt.require trivial fun hpower => ?_
  refine (agreesAt_number 4).bind ?_
  rintro rootDegree s₉ _ _ ⟨_, h₉⟩
  refine agreesAt_code fun config s₁₀ _ _ hconfig h₁₀ => ?_
  refine AgreesAt.checkLevel fun hshape hnodes hsize hflags hroot hcount => AgreesAt.pure ?_
  refine ⟨.of_below ⟨hlouds, hterminals, hlinks, hextras, htail, hslots, hpower, hconfig, hshape,
    hnodes, hsize, hflags, hroot⟩ hstorable hcount, ?_⟩
  rw [Cascade.levelStretches_eq]
  have hfront := h₁.append (h₂.append (h₃.append (h₄.append (h₅.append h₆))))
  have hback := h₈.append (h₉.append h₁₀)
  have hall := hfront.append (h₇.append hback)
  simpa only [Level.frontStretches, Level.backStretches, List.append_assoc, List.append_nil]
    using hall

/-- Levels agree on whatever bytes, if the bytes are enough fuel for them. -/
theorem agreesAt_levels : ∀ {fuel fuel' position : Nat} {front rest : List UInt8} {first : Bool},
    8 ∣ position → front.length < fuel → (front ++ rest).length < fuel' →
    AgreesAt position front rest (readLevels fuel first : Reader σ (Level × List Level))
      (readLevels fuel' first : Reader τ (Level × List Level)) (LevelsFound first)
  | 0, _, _, _, _, _, _, hfuel, _ => absurd hfuel (Nat.not_lt_zero _)
  | _ + 1, 0, _, _, _, _, _, _, hfuel' => absurd hfuel' (Nat.not_lt_zero _)
  | fuel + 1, fuel' + 1, position, front, rest, first, hposition, hfuel, hfuel' => by
      refine agreesAt_level hposition fun hposition' hleft => ?_
      rw [List.length_append] at hfuel'
      refine agreesAt_levels hposition' (by omega) ?_
      rw [List.length_append]
      omega

/-- What is known of a cascade that was found. -/
def CascadeFound (c : Cascade) (stored : List UInt8) : Prop :=
  Cascade.Storable true c.top c.deeper ∧ Stored c.stretches stored

/-- Two sources agree on a stored cascade, with as much fuel as either has bytes. -/
theorem agreesAt_cascade (hfuel : front.length < fuel) (hfuel' : (front ++ rest).length < fuel') :
    AgreesAt 0 front rest (readCascade fuel : Reader σ Cascade)
      (readCascade fuel' : Reader τ Cascade) CascadeFound := by
  refine (agreesAt_take header.length).bind ?_
  rintro bytes _ left hleft ⟨hbytes, hcount⟩
  subst hbytes hleft
  refine AgreesAt.require trivial fun hheader => ?_
  subst hheader
  simp only [List.length_append] at hfuel hfuel'
  have hlevels : AgreesAt (0 + header.length) left rest (readLevels fuel true : Reader σ _)
      (readLevels fuel' true : Reader τ _) (LevelsFound true) := by
    refine agreesAt_levels (by decide) (by omega) ?_
    rw [List.length_append]
    omega
  refine hlevels.bind_pure _ ?_
  rintro ⟨top, deeper⟩ stored ⟨hstorable, hstored⟩
  exact ⟨hstorable, .cons (.fixed header) hstored⟩

end Wire

end Lexicon
