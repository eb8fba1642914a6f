/-
Lexicon.Proofs.Bits.Ranks — reading a bit vector gives the bits that it was made
from, and its ranks count them.

`get?_ofBits` reads bit by bit. `rankRecords_getElem?` says what each rank record
holds: the ones before its block, and with `onesIn_take_packBits` the ones before
each of its words. `rank1?_ofBits` puts the three parts of a rank together, and
`rank_exact` says what callers are answered at every index. Counts are stored in 32
bits, so the statements ask for fewer than 2^32 bits.
-/
import Lexicon.Bits.RankSelect
import Lexicon.Proofs.Bits.Records

namespace Lexicon.BitVector

open RankRecord (onesIn)

variable {bits : List Bool} {zeros ones : Bool}

/-! ## The parts of a packed vector -/

@[simp] theorem size_ofBits : (ofBits bits zeros ones).size = bits.length := rfl

@[simp] theorem ones_ofBits : (ofBits bits zeros ones).ones = bits.count true := rfl

theorem zeros_ofBits : (ofBits bits zeros ones).zeros = bits.count false := by
  have h := List.count_true_add_count_false bits
  rw [BitVector.zeros, size_ofBits, ones_ofBits]
  omega

/-- The number of bits of a kind, by the list. -/
theorem count_ofBits (kind : Bool) : (ofBits bits zeros ones).count kind = bits.count kind := by
  cases kind with
  | false => exact zeros_ofBits
  | true => exact ones_ofBits

theorem words_ofBits_getElem? {k : Nat} (h : 64 * k < bits.length) :
    (ofBits bits zeros ones).words[k]? = some (Word.ofBits ((bits.drop (64 * k)).take 64)) := by
  rw [ofBits, List.getElem?_toArray, packBits_getElem? h]

/-! ## Bits -/

/-- Bit `i` of the vector is entry `i` of the list, and past the end there is none. -/
theorem get?_ofBits (i : Nat) : (ofBits bits zeros ones).get? i = bits[i]? := by
  rw [get?, size_ofBits]
  by_cases h : i < bits.length
  · have hin : i % 64 < 64 := Nat.mod_lt _ (by decide)
    have hword : 64 * (i / 64) < bits.length := by omega
    have hi : 64 * (i / 64) + i % 64 = i := Nat.div_add_mod i 64
    rw [if_pos h, words_ofBits_getElem? hword, Option.map_some, Word.bit_ofBits _ hin,
      List.getD_eq_getElem?_getD, List.getElem?_take_of_lt hin, List.getElem?_drop, hi,
      List.getElem?_eq_getElem h]
    rfl
  · rw [if_neg h, List.getElem?_eq_none (by omega)]

/-! ## Rank records -/

@[simp] theorem length_rankRecords (blocks before : Nat) (words : List Word) :
    (rankRecords blocks before words).length = blocks + 1 := by
  induction blocks generalizing before words with
  | zero => rfl
  | succ blocks ih => rw [rankRecords, List.length_cons, ih]

/-- Record `b` holds the ones before block `b`, and the last one holds them all. -/
theorem rankRecords_getElem? : ∀ (blocks before : Nat) (words : List Word) (b : Nat),
    b ≤ blocks → words.length ≤ 8 * blocks →
    (rankRecords blocks before words)[b]?
      = some (RankRecord.ofBlock (before + onesIn (words.take (8 * b)))
        ((words.drop (8 * b)).take 8))
  | 0, before, words, b, hb, hwords => by
      have hnil : words = [] := List.length_eq_zero_iff.mp (by omega)
      have hzero : b = 0 := by omega
      subst hnil hzero
      rfl
  | blocks + 1, before, words, 0, _, _ => by
      rw [rankRecords, List.getElem?_cons_zero]
      rfl
  | blocks + 1, before, words, b + 1, hb, hwords => by
      have hdrop : (words.drop 8).length ≤ 8 * blocks := by
        rw [List.length_drop]
        omega
      have height : 8 * (b + 1) = 8 + 8 * b := by omega
      rw [rankRecords, List.getElem?_cons_succ,
        rankRecords_getElem? blocks _ (words.drop 8) b (by omega) hdrop, height, List.take_add,
        RankRecord.onesIn_append, List.drop_drop, Nat.add_assoc]

/-- The ones of some packed words are the ones of the bits packed into them. -/
theorem onesIn_pack (n : Nat) (bits : List Bool) :
    onesIn (Word.pack n bits) = countBefore true bits (64 * n) := by
  induction n generalizing bits with
  | zero => simp [Word.pack, onesIn, sumOf]
  | succ n ih =>
    have hlength : (bits.take 64).length ≤ 64 := List.length_take_le 64 bits
    rw [Word.pack, RankRecord.onesIn_cons, Word.ones_ofBits hlength, ih, Nat.mul_succ,
      Nat.add_comm (64 * n), countBefore_add]
    rfl

/-- The ones of the first words of a packed list are the ones of so many times 64 bits. -/
theorem onesIn_take_packBits (bits : List Bool) (j : Nat) :
    onesIn ((packBits bits).take j) = countBefore true bits (64 * j) := by
  rw [packBits, Word.take_pack, onesIn_pack]
  by_cases h : j ≤ blocksOf 64 bits.length
  · rw [Nat.min_eq_left h]
  · have hfull := le_mul_blocksOf (show 0 < 64 by decide) bits.length
    rw [Nat.min_eq_right (by omega), countBefore_of_length_le hfull,
      countBefore_of_length_le (by omega)]

/-- The ones of the first words of a block. -/
theorem onesIn_take_drop_packBits (bits : List Bool) (m j : Nat) :
    countBefore true bits (64 * m) + onesIn (((packBits bits).drop m).take j)
      = countBefore true bits (64 * (m + j)) := by
  rw [← onesIn_take_packBits, ← RankRecord.onesIn_append, ← List.take_add, onesIn_take_packBits]

@[simp] theorem length_packBits (bits : List Bool) :
    (packBits bits).length = blocksOf 64 bits.length := by
  rw [packBits, Word.length_pack]

/-- The record of every block that starts at or before the end of the vector. -/
theorem ranks_ofBits_getElem? {b : Nat} (h : b ≤ blocksOf 512 bits.length) :
    (ofBits bits zeros ones).ranks[b]?
      = some (RankRecord.ofBlock (countBefore true bits (512 * b))
          (((packBits bits).drop (8 * b)).take 8)) := by
  have hwords : (packBits bits).length ≤ 8 * blocksOf 512 bits.length := by
    rw [length_packBits]
    have hfull := le_mul_blocksOf (show 0 < 512 by decide) bits.length
    by_contra hgt
    have hlt := (lt_blocksOf (show 0 < 64 by decide)).mp (Nat.lt_of_not_le hgt)
    omega
  rw [ofBits, List.getElem?_toArray, rankRecords_getElem? _ 0 _ b h hwords, Nat.zero_add,
    onesIn_take_packBits, ← Nat.mul_assoc]

/-- Record `b` counts the ones before block `b`. -/
theorem abs_ranks {b : Nat} {record : RankRecord} (hsize : bits.length < 2 ^ 32)
    (hb : b ≤ blocksOf 512 bits.length)
    (h : (ofBits bits zeros ones).ranks[b]? = some record) :
    record.abs = countBefore true bits (512 * b) := by
  rw [ranks_ofBits_getElem? hb, Option.some.injEq] at h
  have hcount : countBefore true bits (512 * b) < 2 ^ 32 :=
    Nat.lt_of_le_of_lt (Nat.le_trans (countBefore_le_count _) List.count_le_length) hsize
  rw [← h, RankRecord.abs_ofBlock _ hcount]

/-- The counts of a record go on from the ones before its block. -/
theorem abs_add_rel_ranks {b j : Nat} {record : RankRecord} (hsize : bits.length < 2 ^ 32)
    (hb : b ≤ blocksOf 512 bits.length) (hj : j ≤ 7)
    (h : (ofBits bits zeros ones).ranks[b]? = some record) :
    record.abs + record.rel j = countBefore true bits (64 * (8 * b + j)) := by
  have habs := abs_ranks hsize hb h
  rw [ranks_ofBits_getElem? hb, Option.some.injEq] at h
  rw [habs, ← h, RankRecord.rel_ofBlock _ _ hj, List.take_take, Nat.min_eq_left (by omega),
    ← onesIn_take_drop_packBits, ← Nat.mul_assoc]

/-! ## Rank -/

/-- The rank of a position counts the ones before it. -/
theorem rank1?_ofBits (hsize : bits.length < 2 ^ 32) {i : Nat} (hi : i ≤ bits.length) :
    (ofBits bits zeros ones).rank1? i = some (countBefore true bits i) := by
  have hblock : i / 512 ≤ blocksOf 512 bits.length := by
    have hfull := le_mul_blocksOf (show 0 < 512 by decide) bits.length
    omega
  have hword : 8 * (i / 512) + i / 64 % 8 = i / 64 := by omega
  obtain ⟨record, hrecord⟩ : ∃ record, (ofBits bits zeros ones).ranks[i / 512]? = some record :=
    ⟨_, ranks_ofBits_getElem? hblock⟩
  have hbefore := abs_add_rel_ranks hsize hblock (show i / 64 % 8 ≤ 7 by omega) hrecord
  rw [hword] at hbefore
  rw [rank1?, size_ofBits, if_pos hi, hrecord]
  simp only [Option.bind_eq_bind, Option.bind_some, hbefore]
  by_cases haligned : i % 64 = 0
  · have hwhole : 64 * (i / 64) = i := by omega
    rw [if_pos haligned, hwhole]
  · have hinside : 64 * (i / 64) < bits.length := by omega
    have hi' : 64 * (i / 64) + i % 64 = i := Nat.div_add_mod i 64
    have hcount : countBefore true bits (64 * (i / 64))
        + countBefore true (bits.drop (64 * (i / 64))) (i % 64)
        = countBefore true bits i := by
      rw [← countBefore_add, hi']
    rw [if_neg haligned, words_ofBits_getElem? hinside, Option.bind_some,
      Word.onesBelow_ofBits _ (by omega), ← hcount]
    congr 2
    rw [countBefore, countBefore, List.take_take, Nat.min_eq_left (by omega)]

theorem rank0?_ofBits (hsize : bits.length < 2 ^ 32) {i : Nat} (hi : i ≤ bits.length) :
    (ofBits bits zeros ones).rank0? i = some (countBefore false bits i) := by
  have hboth := countBefore_true_add_false hi
  rw [rank0?, rank1?_ofBits hsize hi, Option.map_some, Option.some.injEq]
  omega

theorem rank1_ofBits (hsize : bits.length < 2 ^ 32) (i : Nat) :
    (ofBits bits zeros ones).rank1 i = countBefore true bits (min i bits.length) := by
  rw [rank1, size_ofBits, rank1?_ofBits hsize (Nat.min_le_right i bits.length), Option.getD_some]

theorem rank0_ofBits (hsize : bits.length < 2 ^ 32) (i : Nat) :
    (ofBits bits zeros ones).rank0 i = countBefore false bits (min i bits.length) := by
  have hboth : countBefore true bits (min i bits.length) + countBefore false bits (min i bits.length)
      = min i bits.length := countBefore_true_add_false (Nat.min_le_right i bits.length)
  rw [rank0, size_ofBits, rank1_ofBits hsize]
  omega

/-- At every index the ranks count the ones and the zeros up to the index or the end, whichever
comes first, and up to the end the readers that trust their index find the same. -/
theorem rank_exact (hsize : bits.length < 2 ^ 32) (zeros ones : Bool) (i : Nat) :
    (ofBits bits zeros ones).rank1 i = (bits.take (min i bits.length)).count true
      ∧ (ofBits bits zeros ones).rank0 i
          = min i bits.length - (ofBits bits zeros ones).rank1 i
      ∧ (ofBits bits zeros ones).rank0 i = (bits.take (min i bits.length)).count false
      ∧ (i ≤ bits.length →
        (ofBits bits zeros ones).rank1? i = some ((ofBits bits zeros ones).rank1 i)
          ∧ (ofBits bits zeros ones).rank0? i = some ((ofBits bits zeros ones).rank0 i)) := by
  refine ⟨rank1_ofBits hsize i, rfl, rank0_ofBits hsize i, ?_⟩
  intro hi
  rw [rank1?_ofBits hsize hi, rank0?_ofBits hsize hi, rank1_ofBits hsize, rank0_ofBits hsize,
    Nat.min_eq_left hi]
  exact ⟨rfl, rfl⟩

/-- The end of a vector that fills its last block is read from the record of the total, and an index
past it counts as the end. -/
theorem rank_exact_whole_block :
    (ofBits (List.replicate 512 true) false false).rank1? 512 = some 512
      ∧ (ofBits (List.replicate 512 true) false false).rank1 1000 = 512
      ∧ (ofBits (List.replicate 512 true) false false).rank0 1000 = 0 := by
  have hsize : (List.replicate 512 true).length < 2 ^ 32 := by
    rw [List.length_replicate]
    decide
  obtain ⟨hend, _, _, hchecked⟩ := rank_exact hsize false false 512
  obtain ⟨hones, _, hzeros, _⟩ := rank_exact hsize false false 1000
  rw [(hchecked (by rw [List.length_replicate])).1, hend, hones, hzeros]
  simp only [List.length_replicate, List.take_replicate, List.count_replicate_self,
    List.count_replicate]
  decide

end Lexicon.BitVector
