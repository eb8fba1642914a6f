/-
Lexicon.Proofs.Bits.Broadword — a set bit of a word is found by either way of arithmetic.

A bit is told by the number of set bits below it (`lt_onesBelow_iff`). Where bits can be deposited,
the one that is deposited goes to that position and nothing goes below it (`bit_deposit`).
Otherwise the sums of the counts say how many set bits lie up to the end of every byte
(`exists_sums`), a carry marks the bytes up to whose end there are more than `k` (`bit_carries`),
and the first of them is the byte of the bit (`bitsBelowCarry_eq`). The table has for every byte
and every rank what the search inside a byte finds (`placeAt?_placeTable`). `find_exact` says that
both ways and the search byte by byte give the one position with `k` set bits below it.
-/
import Lexicon.Proofs.Bits.Lanes
import Lexicon.Proofs.Bits.Packing
import Lexicon.Proofs.Bits.Records

namespace Lexicon.Word

variable {w : Word} {k p : Nat}

/-! ## Bits by the number of set bits below them -/

/-- More than `k` set bits lie below a position exactly if it is past the one with `k` below it. -/
theorem lt_onesBelow_iff (hbit : w.bit p = true) (hones : w.onesBelow p = k) (i : Nat) :
    k < w.onesBelow i ↔ p < i := by
  constructor
  · intro hk
    by_contra hi
    have hmono : w.onesBelow i ≤ w.onesBelow p := onesFrom_mono w 0 (Nat.le_of_not_lt hi)
    omega
  · intro hp
    have hsucc : w.onesBelow (p + 1) = w.onesBelow p + 1 :=
      onesFrom_succ_of_bit (by rwa [Nat.zero_add])
    have hmono : w.onesBelow (p + 1) ≤ w.onesBelow i := onesFrom_mono w 0 hp
    omega

theorem eq_of_onesBelow_eq {q : Nat} (hp : w.bit p = true) (hq : w.bit q = true)
    (h : w.onesBelow p = w.onesBelow q) : p = q := by
  have hlt := lt_onesBelow_iff hp rfl q
  have hgt := lt_onesBelow_iff hq rfl p
  omega

/-- Among the first positions there is a bit for every number below the count. -/
theorem exists_bit : ∀ {n : Nat}, k < w.onesBelow n →
    ∃ p < n, w.bit p = true ∧ w.onesBelow p = k
  | 0, h => absurd h (Nat.not_lt_zero k)
  | n + 1, h => by
      have hsplit : w.onesBelow (n + 1) = w.onesBelow n + (w.bit n).toNat := by
        rw [onesBelow, onesFrom_add, Nat.zero_add]
        rfl
      by_cases hk : k < w.onesBelow n
      · obtain ⟨p, hp, hbit⟩ := exists_bit hk
        exact ⟨p, Nat.lt_succ_of_lt hp, hbit⟩
      · cases hbit : w.bit n with
        | false =>
          rw [hbit, Bool.toNat_false] at hsplit
          omega
        | true =>
          rw [hbit, Bool.toNat_true] at hsplit
          exact ⟨n, Nat.lt_succ_self n, hbit, by omega⟩

/-- The lowest set bit ends the trailing zeros. -/
theorem trailingZeros_eq (hp : p < 64) (hbit : w.bit p = true)
    (hlow : ∀ i < p, w.bit i = false) : trailingZeros w = p := by
  have hdigit : ∀ i, i < 64 → w.toBitVec.getLsbD i = w.bit i := by
    intro i hi
    rw [bit_eq_testBit w hi]
    rfl
  have hne : w.toBitVec ≠ 0#64 := by
    intro hzero
    have hdigit := hdigit p hp
    rw [hzero, hbit] at hdigit
    simp at hdigit
  have hset := BitVec.getLsbD_true_ctz_of_ne_zero hne
  rcases Nat.lt_trichotomy (trailingZeros w) p with hlt | heq | hgt
  · have hclear := hlow _ hlt
    rw [← hdigit _ (by omega)] at hclear
    rw [trailingZeros, hset] at hclear
    exact absurd hclear (by decide)
  · exact heq
  · have hclear := BitVec.getLsbD_false_of_lt_ctz hgt
    rw [hdigit p hp, hbit] at hclear
    exact absurd hclear (by decide)

/-! ## Depositing -/

theorem depositBits_getElem? {source mask : Word} : ∀ {left i k d : Nat}, d < left →
    (depositBits source mask i k left)[d]?
      = some (mask.bit (i + d) && source.bit (k + mask.onesFrom i d))
  | left + 1, i, k, 0, _ => by
      rw [depositBits]
      cases mask.bit i <;> simp [onesFrom]
  | left + 1, i, k, d + 1, hd => by
      have hrest : ∀ k : Nat, (depositBits source mask (i + 1) k left)[d]?
          = some (mask.bit (i + 1 + d) && source.bit (k + mask.onesFrom (i + 1) d)) :=
        fun k => depositBits_getElem? (Nat.lt_of_succ_lt_succ hd)
      rw [depositBits, onesFrom, ← Nat.add_assoc, Nat.add_right_comm]
      cases h : mask.bit i with
      | false => simpa [h] using hrest k
      | true => simpa [h, Nat.add_assoc] using hrest (k + 1)

/-- A position of the mask gets the bit of the source that has the number of its set bit. -/
theorem bit_deposit (source mask : Word) {i : Nat} (hi : i < 64) :
    (deposit source mask).bit i = (mask.bit i && source.bit (mask.onesBelow i)) := by
  rw [deposit, bit_ofBits _ hi, List.getD_eq_getElem?_getD, depositBits_getElem? hi, Nat.zero_add,
    Nat.zero_add]
  rfl

/-- One bit alone. -/
theorem bit_one_shiftLeft {i : Nat} (hk : k < 64) (hi : i < 64) :
    bit (1 <<< k.toUInt64) i = decide (i = k) := by
  rw [bit_eq_testBit _ hi, PackedVector.testBit_shiftLeft 1 hk hi, Bool.eq_iff_iff]
  have hone : (1 : Word).toNat = 2 ^ 0 := rfl
  rw [hone, Nat.testBit_two_pow]
  simp only [Bool.and_eq_true, decide_eq_true_eq]
  omega

theorem selectByDeposit?_eq_some (hp : p < 64) (hbit : w.bit p = true) (hones : w.onesBelow p = k) :
    w.selectByDeposit? k = some p := by
  have hle : ∀ i : Nat, w.onesBelow i ≤ i := fun i => RankRecord.onesFrom_le w i 0
  have hk : k < 64 := by
    have hle := hle p
    omega
  have hdeposit : ∀ i < 64, (deposit (1 <<< k.toUInt64) w).bit i
      = (w.bit i && decide (w.onesBelow i = k)) := by
    intro i hi
    rw [bit_deposit _ _ hi, bit_one_shiftLeft hk (Nat.lt_of_le_of_lt (hle i) hi)]
  rw [selectByDeposit?, if_pos hk]
  congr 1
  apply trailingZeros_eq hp
  · rw [hdeposit p hp, hbit, hones]
    simp
  · intro i hi
    rw [hdeposit i (by omega), Bool.and_eq_false_iff, decide_eq_false_iff_not, or_iff_not_imp_left]
    intro hset heq
    have hsame := eq_of_onesBelow_eq (by simpa using hset) hbit (heq.trans hones.symm)
    omega

/-! ## The table of places -/

section

variable {table : Array (Array UInt8)} {rank byte rank' byte' : Nat}

theorem placeAt?_modify (value : UInt8) :
    placeAt? (table.modify rank (·.setIfInBounds byte value)) rank' byte'
      = if rank = rank' ∧ byte = byte' then (placeAt? table rank' byte').map fun _ => value
        else placeAt? table rank' byte' := by
  simp only [placeAt?, Array.getElem?_modify, Option.bind_eq_bind]
  by_cases hrank : rank = rank'
  · subst hrank
    rw [if_pos rfl]
    cases hrow : table[rank]? with
    | none => simp
    | some row =>
      simp only [Option.map_some, Option.bind_some, Array.getElem?_setIfInBounds, true_and]
      by_cases hbyte : byte = byte'
      · subst hbyte
        rw [if_pos rfl, if_pos rfl]
        by_cases hlt : byte < row.size
        · simp [hlt]
        · simp [hlt]
      · rw [if_neg hbyte, if_neg hbyte]
  · rw [if_neg hrank, if_neg (fun h => hrank h.1)]

/-- Entering a byte leaves the rows before the rank and the other bytes as they were. -/
theorem placeAt?_enterByte_of_ne (h : rank' < rank ∨ byte ≠ byte') (left pos : Nat) :
    placeAt? (enterByte byte left pos rank table) rank' byte' = placeAt? table rank' byte' := by
  induction left generalizing pos rank table with
  | zero => rfl
  | succ left ih =>
    rw [enterByte]
    split
    · rw [ih (by omega), placeAt?_modify, if_neg (by omega)]
    · exact ih h (pos + 1)

/-- In the rows from the rank on are the places that the search inside the byte finds. -/
theorem placeAt?_enterByte {old : UInt8} (hold : placeAt? table rank' byte = some old)
    (hrank : rank ≤ rank') (left pos : Nat) :
    placeAt? (enterByte byte left pos rank table) rank' byte
      = some (((selectBit byte.toUInt64 (rank' - rank) pos left).map Nat.toUInt8).getD old) := by
  induction left generalizing pos rank table with
  | zero => exact hold
  | succ left ih =>
    rw [enterByte, selectBit]
    by_cases hbit : bit byte.toUInt64 pos = true
    · rw [if_pos hbit, if_pos hbit]
      by_cases hsame : rank = rank'
      · subst hsame
        rw [placeAt?_enterByte_of_ne (Or.inl (Nat.lt_succ_self rank)), placeAt?_modify,
          if_pos ⟨rfl, rfl⟩, hold, if_pos (Nat.sub_self rank)]
        rfl
      · have hpred : rank' - rank - 1 = rank' - (rank + 1) := by omega
        rw [if_neg (show rank' - rank ≠ 0 by omega), hpred]
        refine ih ?_ (by omega) (pos + 1)
        rw [placeAt?_modify, if_neg (fun h => hsame h.1), hold]
    · rw [if_neg hbit, if_neg hbit]
      exact ih hold hrank (pos + 1)

/-- The table answers for every byte and every rank. -/
theorem placeAt?_placeTable (hrank : rank < 8) (hbyte : byte < 256) :
    placeAt? placeTable rank byte
      = some (((selectBit byte.toUInt64 rank 0 8).map Nat.toUInt8).getD 8) := by
  have hblank : placeAt? (Array.replicate 8 (Array.replicate 256 8)) rank byte = some 8 := by
    simp [placeAt?, hrank, hbyte]
  have hentered : ∀ n : Nat, placeAt? ((List.range n).foldl
      (fun table byte => enterByte byte 8 0 0 table)
      (Array.replicate 8 (Array.replicate 256 8))) rank byte
        = if byte < n then
            some (((selectBit byte.toUInt64 rank 0 8).map Nat.toUInt8).getD 8)
          else some 8 := by
    intro n
    induction n with
    | zero => exact hblank
    | succ n ih =>
      rw [List.range_succ, List.foldl_append, List.foldl_cons, List.foldl_nil]
      by_cases hn : n = byte
      · subst hn
        rw [if_neg (Nat.lt_irrefl n)] at ih
        rw [placeAt?_enterByte ih (Nat.zero_le rank), if_pos (Nat.lt_succ_self n), Nat.sub_zero]
      · have hlt : byte < n + 1 ↔ byte < n := by omega
        rw [placeAt?_enterByte_of_ne (Or.inr hn), ih]
        simp only [hlt]
  rw [placeTable, hentered 256, if_pos hbyte]

end

/-! ## The byte of a bit -/

/-- The sums of the counts tell in every lane how many set bits there are up to the end of it. -/
theorem exists_sums (w : Word) :
    ∃ counts, w.byteCounts? = some counts
      ∧ ∀ j < 8, lane (counts * laneOnes) j = w.onesBelow (8 * (j + 1)) := by
  obtain ⟨counts, hcounts, hlane⟩ := byteCounts?_spec w
  have htotal : ∀ j < 8, w.onesBelow (8 * (j + 1)) = w.onesBelow (8 * j) + lane counts j := by
    intro j hj
    rw [hlane j hj, Nat.mul_succ, onesBelow, onesFrom_add, Nat.zero_add, onesBelow]
  have hlt : ∀ j < 8, w.onesBelow (8 * (j + 1)) < 256 := by
    intro j hj
    have hle := RankRecord.onesFrom_le w (8 * (j + 1)) 0
    rw [onesBelow]
    omega
  refine ⟨counts, hcounts, fun j hj => ?_⟩
  exact lane_mul_ones (fun j => w.onesBelow (8 * j)) rfl htotal hlt hj

theorem carryTable_getElem? (hk : k < 64) :
    carryTable[k]? = some ((0x7F - k).toUInt64 * laneOnes) := by
  rw [carryTable, List.getElem?_toArray, List.getElem?_map, List.getElem?_range hk, Option.map_some]

theorem lane_carry : ∀ k < 64, ∀ j < 8, lane ((0x7F - k).toUInt64 * laneOnes) j = 0x7F - k := by
  decide +kernel

theorem lane_laneTops : ∀ j < 8, lane laneTops j = 2 ^ 7 := by
  decide

section

variable {sums : Word}

/-- A carry into the top bit of a lane marks that more than `k` set bits lie up to its end. -/
theorem bit_carries (hsums : ∀ j < 8, lane sums j = w.onesBelow (8 * (j + 1))) (hk : k < 64)
    {i : Nat} (hi : i < 64) :
    bit (((sums + (0x7F - k).toUInt64 * laneOnes) &&& laneTops) >>> 7) i
      = decide (i % 8 = 0 ∧ k < w.onesBelow (i + 8)) := by
  have hle : ∀ j : Nat, w.onesBelow j ≤ j := fun j => RankRecord.onesFrom_le w j 0
  obtain ⟨-, hadd⟩ := lane_add (a := sums) (b := (0x7F - k).toUInt64 * laneOnes) fun j hj => by
    have hle := hle (8 * (j + 1))
    rw [hsums j hj, lane_carry k hk j hj]
    omega
  have hshift := PackedVector.testBit_shiftRight
    ((sums + (0x7F - k).toUInt64 * laneOnes) &&& laneTops) (show 7 < 64 by decide) i
  rw [bit_eq_testBit _ hi]
  refine hshift.trans ?_
  by_cases hlast : 7 + i < 64
  · have hj : (7 + i) / 8 < 8 := by omega
    have hmod : (7 + i) % 8 < 8 := Nat.mod_lt _ (by decide)
    have hbit := testBit_lane ((sums + (0x7F - k).toUInt64 * laneOnes) &&& laneTops) ((7 + i) / 8)
      ((7 + i) % 8)
    rw [Nat.div_add_mod, decide_eq_true hmod, Bool.true_and, lane_and, hadd _ hj, hsums _ hj,
      lane_carry k hk _ hj, lane_laneTops _ hj, Nat.testBit_and, Nat.testBit_two_pow] at hbit
    rw [← hbit, Bool.eq_iff_iff]
    simp only [Bool.and_eq_true, decide_eq_true_eq]
    by_cases hzero : i % 8 = 0
    · have hseven : (7 + i) % 8 = 7 := by omega
      have hend : 8 * ((7 + i) / 8 + 1) = i + 8 := by omega
      have hle := hle (i + 8)
      rw [hseven, hend, Nat.testBit_eq_decide_div_mod_eq, decide_eq_true_eq]
      omega
    · omega
  · rw [PackedVector.testBit_eq_false_of_le _ (Nat.le_of_not_lt hlast)]
    symm
    rw [decide_eq_false_iff_not]
    omega

/-- The lowest mark is at the byte of the bit. -/
theorem bitsBelowCarry_eq (hsums : ∀ j < 8, lane sums j = w.onesBelow (8 * (j + 1)))
    (hk : k < 64) (hp : p < 64) (hbit : w.bit p = true) (hones : w.onesBelow p = k) :
    bitsBelowCarry sums ((0x7F - k).toUInt64 * laneOnes) = 8 * (p / 8) := by
  apply trailingZeros_eq (by omega)
  · rw [bit_carries hsums hk (by omega), decide_eq_true_eq, lt_onesBelow_iff hbit hones]
    omega
  · intro i hi
    rw [bit_carries hsums hk (by omega), decide_eq_false_iff_not, lt_onesBelow_iff hbit hones]
    omega

end

/-- In its byte the bit stands where the table has it. -/
theorem placeAt?_lane (hp : p < 64) (hbit : w.bit p = true) :
    placeAt? placeTable (w.onesFrom (8 * (p / 8)) (p % 8)) (lane w (p / 8))
      = some (p % 8).toUInt8 := by
  have hj : p / 8 < 8 := by omega
  have hmod : p % 8 < 8 := Nat.mod_lt _ (by decide)
  have hle := RankRecord.onesFrom_le w (p % 8) (8 * (p / 8))
  have hplace : bit (lane w (p / 8)).toUInt64 (0 + p % 8) = true := by
    rw [Nat.zero_add, bit_toUInt64_lane w hj hmod, Nat.div_add_mod, hbit]
  have hrank := onesFrom_toUInt64_lane w hj (Nat.le_of_lt hmod)
  rw [placeAt?_placeTable (by omega) (lane_lt w _), selectBit_eq_some hmod hplace hrank,
    Nat.zero_add]
  rfl

/-- In the byte of the bit the search gives its position. -/
theorem selectInByte?_eq_some {sums : Word}
    (hsums : ∀ j < 8, lane sums j = w.onesBelow (8 * (j + 1))) (hp : p < 64)
    (hbit : w.bit p = true) (hones : w.onesBelow p = k) :
    w.selectInByte? sums k (8 * (p / 8)) = some p := by
  have hj : p / 8 < 8 := by omega
  have hlt : ∀ j < 8, w.onesBelow (8 * j) < 256 := by
    intro j hj
    exact Nat.lt_of_le_of_lt (RankRecord.onesFrom_le w (8 * j) 0) (by omega)
  obtain ⟨below, hbelow, hbelow_toNat⟩ := exists_byteFrom? (sums <<< 8) hj
  obtain ⟨byte, hbyte, hbyte_toNat⟩ := exists_byteFrom? w hj
  rw [lane_shiftLeft_eight (f := fun j => w.onesBelow (8 * j)) rfl hsums hlt hj] at hbelow_toNat
  have hsplit : w.onesBelow (8 * (p / 8)) + w.onesFrom (8 * (p / 8)) (p % 8) = k := by
    have hadd := onesFrom_add w 0 (8 * (p / 8)) (p % 8)
    rw [Nat.div_add_mod, Nat.zero_add] at hadd
    exact hadd.symm.trans hones
  have hrank : k - below.toNat = w.onesFrom (8 * (p / 8)) (p % 8) := by omega
  have hplace : (p % 8).toUInt8.toNat = p % 8 := by
    rw [Nat.toUInt8_eq, UInt8.toNat_ofNat']
    omega
  rw [selectInByte?, hbelow, Option.bind_eq_bind, Option.bind_some, hbyte, Option.bind_eq_bind,
    Option.bind_some, if_pos (by omega), hrank, hbyte_toNat, placeAt?_lane hp hbit,
    Option.bind_some, hplace, Nat.div_add_mod]

theorem selectByTable?_eq_some (hp : p < 64) (hbit : w.bit p = true) (hones : w.onesBelow p = k) :
    w.selectByTable? k = some p := by
  have hk : k < 64 := by
    have hle := RankRecord.onesFrom_le w p 0
    rw [onesBelow] at hones
    omega
  obtain ⟨counts, hcounts, hsums⟩ := exists_sums w
  rw [selectByTable?, hcounts, Option.bind_eq_bind, Option.bind_some, carryTable_getElem? hk,
    Option.bind_some, bitsBelowCarry_eq hsums hk hp hbit hones]
  exact selectInByte?_eq_some hsums hp hbit hones

/-- For every number below the count of set bits, whether the machine can deposit bits or not, the
search in a word gives the one position of a set bit that has so many set bits below it, and the
search byte by byte gives the same. -/
theorem find_exact (hk : k < w.ones) (deposits : Bool) :
    ∃ p, w.find? deposits k = some p ∧ w.select? k = some p
      ∧ p < 64 ∧ w.bit p = true ∧ w.onesBelow p = k
      ∧ ∀ q < 64, w.bit q = true → w.onesBelow q = k → q = p := by
  obtain ⟨p, hp, hbit, hones⟩ := exists_bit hk
  refine ⟨p, ?_, select?_eq_some hp hbit hones, hp, hbit, hones, ?_⟩
  · rw [find?, if_pos hk]
    cases deposits with
    | true => exact selectByDeposit?_eq_some hp hbit hones
    | false => exact selectByTable?_eq_some hp hbit hones
  · intro q _ hq hsame
    exact eq_of_onesBelow_eq hq hbit (hsame.trans hones.symm)

/-- The last set bits of the topmost byte, where all the others are clear and where all are set. -/
theorem find_exact_topmost :
    find? false 0xA500000000000000 3 = some 63 ∧ find? true 0xA500000000000000 3 = some 63
      ∧ find? false 0xFFFFFFFFFFFFFFFF 63 = some 63 := by
  have htop : 3 < ones 0xA500000000000000 := by decide
  have hfull : 63 < ones 0xFFFFFFFFFFFFFFFF := by decide
  obtain ⟨p, hp, -, -, -, -, hunique⟩ := find_exact htop false
  obtain ⟨q, hq, -, -, -, -, hunique'⟩ := find_exact htop true
  obtain ⟨r, hr, -, -, -, -, hunique''⟩ := find_exact hfull false
  rw [hp, hq, hr, ← hunique 63 (by decide) (by decide) (by decide),
    ← hunique' 63 (by decide) (by decide) (by decide),
    ← hunique'' 63 (by decide) (by decide) (by decide)]
  exact ⟨rfl, rfl, rfl⟩

end Lexicon.Word
