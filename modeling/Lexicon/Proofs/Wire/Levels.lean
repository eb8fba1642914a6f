/-
Lexicon.Proofs.Wire.Levels — what can be stored is read back, level by level.

`Level.Storable` says that the parts of a level can be stored and pass the cross-checks of
the reader, `Cascade.Storable` that every level does and tells by its links and its tail
whether another one follows. The levels lie inside one another, so reading them back goes
by induction on the levels, with the parts before the next level and those after it read
around it (`readsAt_level`). `Cascade.decode_encode` puts the header in front: a storable
cascade is restored from every lawful source that holds its stored form.
-/
import Lexicon.Proofs.Wire.Fields

namespace Lexicon

/-- The parts of a level can be stored and fit each other. -/
structure Level.Storable (first : Bool) (l : Level) : Prop where
  louds : l.louds.Storable
  terminals : l.terminals.Storable
  links : l.links.Storable
  extras : l.extras.Storable
  tail : l.tail.Storable
  slots_lt : 12 * l.cache.size < 2 ^ 64
  slots : Wire.isPowerOfTwo l.cache.size = true
  config : l.config.Valid
  shape : 4 ≤ l.louds.size ∧ l.louds.hasOneSamples = true
    ∧ (first = true → l.louds.hasZeroSamples = true)
  nodes : l.bases.size = l.numNodes ∧ l.links.size = l.numNodes
  extras_size : l.extras.size = l.links.ones
  flags : first = true → l.terminals.size = l.numNodes + 1 ∧ l.terminals.hasOneSamples = true
  rootDegree : l.rootDegree < l.numNodes

/-- All levels can be stored: the ones above hold no strings but have links, the last one keeps the
strings of its links if it has any, and every level counts those from it on. -/
inductive Cascade.Storable : Bool → Level → List Level → Prop
  | last {first : Bool} {level : Level} : level.Storable first → level.config.levels = 1 →
    ¬(level.links.ones ≠ 0 ∧ level.tail.isEmpty = true) → Storable first level []
  | above {first : Bool} {level next : Level} {deeper : List Level} : level.Storable first →
    level.config.levels = next.config.levels + 1 →
    level.links.ones ≠ 0 ∧ level.tail.isEmpty = true → Storable false next deeper →
    Storable first level (next :: deeper)

/-- The levels that can be stored are as many as the first one counts. -/
theorem Cascade.Storable.levels_eq {first : Bool} {level : Level} {deeper : List Level}
    (h : Cascade.Storable first level deeper) :
    level.config.levels = (level :: deeper).length := by
  induction h with
  | last _ hcount _ => exact hcount
  | above _ hcount _ _ ih =>
    rw [hcount, ih]
    rfl

theorem Cascade.Storable.valid {first : Bool} {level : Level} {deeper : List Level}
    (h : Cascade.Storable first level deeper) : level.config.Valid := by
  cases h with
  | last hlevel _ _ => exact hlevel.config
  | above hlevel _ _ _ => exact hlevel.config

namespace Wire

variable {σ : Type} [ByteSource σ] [LawfulSource σ] {position fuel : Nat} {first : Bool}
  {level : Level}

/-- The parts of a level that is storable pass the check against each other, which takes nothing. -/
theorem ReadsAt.checkLevel {β : Type} {held : Nat} {next : Unit → Reader σ β} {bytes : List UInt8}
    {result : β} (h : level.Storable first) (hheld : level.config.levels = held)
    (hnext : ReadsAt position (next ()) bytes result) :
    ReadsAt position (Wire.checkLevel first held level >>= next) bytes result := by
  simp only [Wire.checkLevel, bind_assoc]
  refine ReadsAt.require h.shape ?_
  refine ReadsAt.require h.nodes ?_
  refine ReadsAt.require h.extras_size ?_
  refine ReadsAt.require h.flags ?_
  refine ReadsAt.require h.rootDegree ?_
  exact ReadsAt.require hheld hnext

/-- A reader that is chosen by a condition, with what follows it under either branch. -/
theorem ReadsAt.ite_bind {α β : Type} {condition : Prop} [Decidable condition]
    {yes no : Reader σ α} {next : α → Reader σ β} {bytes more : List UInt8} {value : α} {result : β}
    (h : ReadsAt position (if condition then yes else no) bytes value)
    (hnext : ReadsAt (position + bytes.length) (next value) more result) :
    ReadsAt position (if condition then yes >>= next else no >>= next) (bytes ++ more) result := by
  rw [← apply_ite (· >>= next)]
  exact h.bind hnext

theorem ReadsAt.lift {α β : Type} {x : Except Fault α} {value : α} {next : α → Reader σ β}
    {bytes : List UInt8} {result : β} (h : x = .ok value)
    (hnext : ReadsAt position (next value) bytes result) :
    ReadsAt position ((liftM x : Reader σ α) >>= next) bytes result := by
  subst h
  exact hnext

theorem flatten_frontPieces (level : Level) : level.frontPieces.flatten
    = level.louds.pieces.flatten ++ (level.terminals.pieces.flatten
      ++ (level.links.pieces.flatten ++ ((blobPieces level.bases.toList).flatten
        ++ (level.extras.pieces.flatten ++ level.tail.pieces.flatten)))) := by
  simp [Level.frontPieces]

theorem flatten_backPieces (level : Level) : level.backPieces.flatten
    = (blobPieces (bytes32 (level.cache.toList.flatMap (·.fields)))).flatten
      ++ (littleEndian 4 level.rootDegree ++ littleEndian 4 level.config.word.toNat) := by
  simp [Level.backPieces]

/-- The parts before the next level end where it may begin. -/
theorem dvd_length_front (level : Level) : 8 ∣ level.frontPieces.flatten.length := by
  have hlouds := dvd_length_bitVector level.louds
  have hterminals := dvd_length_bitVector level.terminals
  have hlinks := dvd_length_bitVector level.links
  have hbases := dvd_length_blob level.bases.toList
  have hextras := dvd_length_packedVector level.extras
  have htail := dvd_length_tail level.tail
  simp only [flatten_frontPieces, List.length_append]
  omega

/-- The parts after the next level end where the level above goes on. -/
theorem dvd_length_back (level : Level) : 8 ∣ level.backPieces.flatten.length := by
  have hslots := dvd_length_blob (bytes32 (level.cache.toList.flatMap (·.fields)))
  simp only [flatten_backPieces, List.length_append, length_littleEndian]
  omega

/-- A level is read around whatever stands for the levels below it. -/
theorem readsAt_level {below : List Level} {bytes : List UInt8} (h : level.Storable first)
    (hposition : 8 ∣ position)
    (hheld : level.config.levels = (below.head?.map (·.config.levels)).getD 0 + 1)
    (hbytes : 8 ∣ bytes.length)
    (hbelow : ReadsAt (position + level.frontPieces.flatten.length)
      (if level.links.ones ≠ 0 ∧ level.tail.isEmpty = true then
        (fun (next, deeper) => next :: deeper) <$> (readLevels fuel false : Reader σ _)
      else pure []) bytes below) :
    ReadsAt position (readLevels (fuel + 1) first : Reader σ (Level × List Level))
      (level.frontPieces.flatten ++ (bytes ++ level.backPieces.flatten)) (level, below) := by
  have hlouds := dvd_length_bitVector level.louds
  have hterminals := dvd_length_bitVector level.terminals
  have hlinks := dvd_length_bitVector level.links
  have hbases := dvd_length_blob level.bases.toList
  have hextras := dvd_length_packedVector level.extras
  have htail := dvd_length_tail level.tail
  have hslots := dvd_length_blob (bytes32 (level.cache.toList.flatMap (·.fields)))
  have hlouds_lt := h.louds.size_lt
  have hroot := h.rootDegree
  have hnodes := h.nodes.1
  have hcount : level.numNodes = level.louds.size / 2 - 1 := rfl
  simp only [flatten_frontPieces, List.length_append, ← Nat.add_assoc] at hbelow
  rw [flatten_frontPieces, flatten_backPieces,
    ← List.append_nil (littleEndian 4 level.config.word.toNat)]
  simp only [List.append_assoc]
  rw [readLevels]
  refine (readsAt_bitVector h.louds hposition).bind ?_
  refine (readsAt_bitVector h.terminals (by omega)).bind ?_
  refine (readsAt_bitVector h.links (by omega)).bind ?_
  refine (readsAt_bytes (by omega)).bind ?_
  refine (readsAt_packedVector h.extras (by omega)).bind ?_
  refine (readsAt_tail h.tail (by omega)).bind ?_
  refine hbelow.ite_bind ?_
  refine (readsAt_slots (by omega) h.slots_lt).bind ?_
  refine ReadsAt.require h.slots ?_
  refine (readsAt_number (by omega)).bind ?_
  refine (readsAt_number level.config.word.toNat_lt).bind ?_
  have hword : level.config.word.toNat.toUInt32 = level.config.word := UInt32.ofNat_toNat
  rw [hword]
  refine ReadsAt.lift (Config.ofWord_word h.config) ?_
  exact ReadsAt.checkLevel h hheld (ReadsAt.pure (level, below))

theorem flatten_levelPieces_cons (level next : Level) (deeper : List Level) :
    (Cascade.levelPieces level (next :: deeper)).flatten = level.frontPieces.flatten
      ++ ((Cascade.levelPieces next deeper).flatten ++ level.backPieces.flatten) := by
  simp [Cascade.levelPieces]

theorem dvd_length_levels : ∀ (level : Level) (deeper : List Level),
    8 ∣ (Cascade.levelPieces level deeper).flatten.length
  | level, [] => by
      rw [Cascade.levelPieces, List.flatten_append, List.length_append]
      exact Nat.dvd_add (dvd_length_front level) (dvd_length_back level)
  | level, next :: deeper => by
      rw [flatten_levelPieces_cons, List.length_append, List.length_append]
      exact Nat.dvd_add (dvd_length_front level)
        (Nat.dvd_add (dvd_length_levels next deeper) (dvd_length_back level))

/-- Every level takes some bytes, so the stored form bounds the number of levels. -/
theorem length_deeper_lt : ∀ (level : Level) (deeper : List Level),
    deeper.length < (Cascade.levelPieces level deeper).flatten.length
  | level, [] => by
      simp [Cascade.levelPieces, Level.backPieces]
  | level, next :: deeper => by
      have ih := length_deeper_lt next deeper
      have hback : 0 < level.backPieces.flatten.length := by simp [Level.backPieces]
      rw [flatten_levelPieces_cons, List.length_append, List.length_append, List.length_cons]
      omega

/-- Levels that are storable are read back as they were. -/
theorem readsAt_levels {deeper : List Level} (h : Cascade.Storable first level deeper)
    (hposition : 8 ∣ position) (hfuel : deeper.length < fuel) :
    ReadsAt position (readLevels fuel first : Reader σ (Level × List Level))
      (Cascade.levelPieces level deeper).flatten (level, deeper) := by
  induction h generalizing position fuel with
  | last hlevel hcount hends =>
    obtain ⟨fuel, rfl⟩ := Nat.exists_eq_add_of_lt hfuel
    rw [Cascade.levelPieces, List.flatten_append, ← List.nil_append (Level.backPieces _).flatten]
    refine readsAt_level hlevel hposition hcount (Nat.dvd_zero 8) ?_
    rw [if_neg hends]
    exact ReadsAt.pure []
  | @above first level next deeper hlevel hcount hgoes hnext ih =>
    obtain ⟨fuel, rfl⟩ := Nat.exists_eq_add_of_lt hfuel
    rw [flatten_levelPieces_cons]
    refine readsAt_level hlevel hposition hcount (dvd_length_levels next deeper) ?_
    rw [if_pos hgoes]
    refine (ih (Nat.dvd_add hposition (dvd_length_front level)) ?_).map _
    rw [List.length_cons]
    omega

/-- The header stands before the levels. -/
theorem readsAt_cascade {c : Cascade} (h : Cascade.Storable true c.top c.deeper)
    (hfuel : c.deeper.length < fuel) :
    ReadsAt 0 (readCascade fuel : Reader σ Cascade) c.encode c := by
  refine (ReadsAt.take 0 header).bind ?_
  refine ReadsAt.require rfl ?_
  exact (readsAt_levels h (by decide) hfuel).bind_pure _

end Wire

namespace Cascade

variable {c : Cascade}

/-- A cascade that is storable is restored from any source that holds its stored form with whatever
behind it, by as much fuel as the stored form has bytes. -/
theorem decode_encode {σ : Type} [ByteSource σ] [LawfulSource σ] {source : σ} {more : List UInt8}
    {fuel : Nat} (h : Storable true c.top c.deeper)
    (hholds : LawfulSource.Holds source 0 (c.encode ++ more)) (hfuel : c.encode.length < fuel) :
    ∃ source', (Wire.readCascade fuel : Wire.Reader σ Cascade).run source = .ok (c, source') := by
  have hdeeper : c.deeper.length < fuel := by
    have hlt := Wire.length_deeper_lt c.top c.deeper
    rw [encode, pieces, List.flatten_cons, List.length_append] at hfuel
    omega
  obtain ⟨source', hrun, _⟩ := Wire.readsAt_cascade h hdeeper source more hholds
  exact ⟨source', hrun⟩

end Cascade

namespace Dictionary

variable {c : Cascade}

/-- A stream gives back the cascade whose stored form its chunks begin with. -/
theorem read_encode_append {chunks : List (List UInt8)} {more : List UInt8}
    (h : Cascade.Storable true c.top c.deeper) (hchunks : chunks.flatten = c.encode ++ more) :
    read ⟨chunks⟩ = .ok ⟨some c⟩ := by
  have hholds : LawfulSource.Holds (⟨chunks⟩ : Stream) 0 (c.encode ++ more) := hchunks
  have hlength : sumOf (chunks.map (·.length)) = (c.encode ++ more).length := by
    rw [← hchunks, List.length_flatten]
    rfl
  rw [List.length_append] at hlength
  obtain ⟨source', hrun⟩ := Cascade.decode_encode h hholds
    (Nat.lt_succ_of_le (Nat.le_add_right c.encode.length more.length))
  unfold read
  simp only [hlength, hrun]
  rfl

/-- A stream gives back the cascade whose stored form its chunks make up. -/
theorem read_encode {chunks : List (List UInt8)} (h : Cascade.Storable true c.top c.deeper)
    (hchunks : chunks.flatten = c.encode) : read ⟨chunks⟩ = .ok ⟨some c⟩ :=
  read_encode_append h (hchunks.trans (List.append_nil _).symm)

/-- A region gives back the cascade whose stored form it begins with. -/
theorem ofBytes_encode_append (h : Cascade.Storable true c.top c.deeper) (more : List UInt8) :
    ofBytes (c.encode ++ more) = .ok ⟨some c⟩ := by
  have hholds : LawfulSource.Holds (Region.ofBytes (c.encode ++ more)) 0 (c.encode ++ more) :=
    ⟨rfl, List.drop_zero⟩
  obtain ⟨source', hrun⟩ := Cascade.decode_encode h hholds
    (Nat.lt_succ_of_le (Nat.le_add_right c.encode.length more.length))
  unfold ofBytes
  simp only [List.length_append, hrun]
  rfl

/-- A region gives back the cascade whose stored form it is. -/
theorem ofBytes_encode (h : Cascade.Storable true c.top c.deeper) :
    ofBytes c.encode = .ok ⟨some c⟩ := by
  have happend := ofBytes_encode_append h []
  rwa [List.append_nil] at happend

end Dictionary

end Lexicon
