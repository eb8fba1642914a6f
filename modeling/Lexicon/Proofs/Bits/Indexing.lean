/-
Lexicon.Proofs.Bits.Indexing — one pass over the words gives the whole index.

`Indexing.Counts` is what holds after the first `n` words. The record of a block has the counts of
the words that were reached (`Indexing.Reaches`), and the samples found so far with those of the
bits that are left are all samples (`Indexing.Gathers`): a word has at most one bit to sample, and
`BitVector.samples_append_of_selectsAt` says that it is the one behind the gap. Every word keeps
this (`Indexing.Counts.step`), so by induction all of them do (`Indexing.Counts.steps`). The words
that the last block lacks are then reached with all of its ones before them
(`Indexing.Reaches.fillLast`), and with the total the index is that of the bits
(`BitVector.index?_packBits`). `BitVector.index_exact` says of it what the index is for.
-/
import Lexicon.Bits.Indexing
import Lexicon.Proofs.Bits.Packing
import Lexicon.Proofs.Bits.Selects

namespace Lexicon

open RankRecord (onesIn)

/-! ## The record of a block, word by word -/

namespace RankRecord

/-- The record of a block whose first words have been reached, so many of them. -/
def reached (before : Nat) (words : List Word) : Nat → RankRecord
  | 0 => {}
  | 1 => ({} : RankRecord).setAbs before
  | m + 2 => (reached before words (m + 1)).setRel (m + 1) (onesIn (words.take (m + 1)))

variable {before : Nat} {words : List Word}

theorem abs_reached (hbefore : before < 2 ^ 32) :
    ∀ m : Nat, (reached before words (m + 1)).abs = before
  | 0 => abs_setAbs _ hbefore
  | m + 1 => by rw [reached, abs_setRel, abs_reached hbefore m]

/-- With all eight words reached the record is that of the block. -/
theorem reached_eight : reached before words 8 = ofBlock before words :=
  rfl

/-- The record of a block without words says that nothing is added. -/
theorem ofBlock_nil : ofBlock before [] = ({} : RankRecord).setAbs before := by
  have hwrite : ∀ f : Field, f.write 0 0 = 0 := by
    intro f
    simp [Field.write]
  have hset : ∀ (r : RankRecord) (j : Nat), r.low = 0 → r.high = 0 → r.setRel j 0 = r := by
    rintro ⟨absolute, low, high⟩ j rfl rfl
    have hzero : (0 : Nat).toUInt32 = 0 := rfl
    simp only [setRel, hzero, hwrite]
    split <;> rfl
  have hones : ∀ j, onesIn (([] : List Word).take j) = 0 := by
    intro j
    rw [List.take_nil]
    rfl
  unfold ofBlock
  simp only [hones]
  induction [1, 2, 3, 4, 5, 6, 7] with
  | nil => rfl
  | cons j js ih => rw [List.foldl_cons, hset _ j rfl rfl, ih]

/-- Reaching one more word adds the count of the ones before it, for which there is room. -/
theorem reach?_reached {m : Nat} (hm : m < 8) (hones : before + onesIn (words.take m) < 2 ^ 32) :
    (reached before words m).reach? m (before + onesIn (words.take m))
      = some (reached before words (m + 1)) := by
  cases m with
  | zero =>
    have hnone : onesIn (words.take 0) = 0 := rfl
    rw [hnone, Nat.add_zero] at hones ⊢
    rw [reach?, if_pos rfl, setAbs?, if_pos (show before < UInt32.size from hones)]
    rfl
  | succ m =>
    have habs : (reached before words (m + 1)).abs = before := abs_reached (by omega) m
    have hroom := onesIn_take_le words (m + 1)
    rw [reach?, if_neg (Nat.succ_ne_zero m), habs, if_pos (Nat.le_add_right _ _),
      Nat.add_sub_cancel_left, setRel?, if_pos ⟨Nat.succ_pos m, hm, hroom⟩]
    rfl

/-- The words that a block lacks are reached with all ones of the block before them. -/
theorem foldlM_reach? (hones : before + onesIn words < 2 ^ 32) :
    ∀ {m n : Nat}, words.length ≤ m → m + n ≤ 8 →
    (List.range' m n).foldlM (fun r j => r.reach? j (before + onesIn words))
      (reached before words m) = some (reached before words (m + n))
  | m, 0, _, _ => rfl
  | m, n + 1, hm, hn => by
      have hall : words.take m = words := List.take_of_length_le hm
      have hstep : (reached before words m).reach? m (before + onesIn (words.take m))
          = some (reached before words (m + 1)) := reach?_reached (by omega) (by rwa [hall])
      rw [hall] at hstep
      have hplace : m + (n + 1) = m + 1 + n := by omega
      rw [List.range'_succ, List.foldlM_cons, hstep, hplace]
      exact foldlM_reach? hones (by omega) (by omega)

end RankRecord

/-! ## The samples of a word -/

namespace Indexing

/-- Wrapping around does not matter, for blocks of 512 fill the range of a number. -/
theorem gap_eq (seen : Nat) : gap seen = (512 - seen % 512) % 512 := by
  have hsize : UInt64.size = 18446744073709551616 := rfl
  rw [gap, UInt64.toNat_neg, Nat.toUInt64_eq, UInt64.toNat_ofNat', hsize]
  omega

end Indexing

namespace BitVector

open Indexing (gap gap_eq)

variable {kind : Bool} {rest : List Bool}

/-- Bits give no sample as long as those of the kind only fill the gap. -/
theorem samples_append_of_le : ∀ (window : List Bool) {position seen : Nat},
    window.count kind ≤ gap seen →
    samples kind position seen (window ++ rest)
      = samples kind (position + window.length) (seen + window.count kind) rest
  | [], _, _, _ => rfl
  | b :: window, position, seen, hgap => by
      have hlength : position + (b :: window).length = position + 1 + window.length := by
        rw [List.length_cons]
        omega
      rw [gap_eq, List.count_cons] at hgap
      rw [List.cons_append, samples, hlength, List.count_cons]
      by_cases hb : b = kind
      · have hbeq : (b == kind) = true := by simpa using hb
        rw [if_pos hbeq] at hgap ⊢
        have haligned : seen % 512 ≠ 0 := by omega
        have hcount : seen + (window.count kind + 1) = seen + 1 + window.count kind := by omega
        have hrest : window.count kind ≤ gap (seen + 1) := by
          rw [gap_eq]
          omega
        rw [if_pos hb, if_neg haligned, hcount]
        exact samples_append_of_le window hrest
      · have hbeq : ¬(b == kind) = true := by simpa using hb
        rw [if_neg hbeq, Nat.add_zero] at hgap
        have hrest : window.count kind ≤ gap seen := by rwa [gap_eq]
        rw [if_neg hb, if_neg hbeq]
        exact samples_append_of_le window hrest

/-- No more than 512 bits give one sample, if they have a bit of the kind behind the gap. -/
theorem samples_append_of_selectsAt {window : List Bool} {position seen i : Nat}
    (h : SelectsAt kind window (gap seen) i) (hshort : window.length ≤ 512) :
    samples kind position seen (window ++ rest)
      = (position + i).toUInt32
        :: samples kind (position + window.length) (seen + window.count kind) rest := by
  have hi := h.lt_length
  have hsplit : window = window.take i ++ kind :: window.drop (i + 1) := by
    rw [← (List.getElem?_eq_some_iff.mp h.bit).2, ← List.drop_eq_getElem_cons hi,
      List.take_append_drop]
  have hfront : (window.take i).count kind = gap seen := h.count
  have hlength : (window.take i).length = i := List.length_take_of_le (Nat.le_of_lt hi)
  have haligned : (seen + gap seen) % 512 = 0 := by
    rw [gap_eq]
    omega
  have hback : (window.drop (i + 1)).count kind ≤ gap (seen + gap seen + 1) := by
    have hcount := List.count_le_length (a := kind) (l := window.drop (i + 1))
    rw [List.length_drop] at hcount
    rw [gap_eq (seen + gap seen + 1)]
    omega
  have hends : position + window.length = position + i + 1 + (window.drop (i + 1)).length := by
    rw [List.length_drop]
    omega
  have hcounts : seen + window.count kind
      = seen + gap seen + 1 + (window.drop (i + 1)).count kind := by
    conv_lhs => rw [hsplit, List.count_append, hfront, List.count_cons_self]
    omega
  conv_lhs => rw [hsplit, List.append_assoc, List.cons_append]
  rw [samples_append_of_le _ (Nat.le_of_eq hfront), hlength, hfront, samples, if_pos rfl,
    if_pos haligned, samples_append_of_le _ hback, hends, hcounts]

/-- What a word adds to the samples is what its bits add: the set bits of the word, or of its
complement, are those of the kind. -/
theorem exists_sample? (kind : Bool) {window : List Bool} (hshort : window.length ≤ 64)
    (position seen : Nat) (found : Array UInt32) (rest : List Bool) :
    ∃ found', Indexing.sample? found (if kind then Word.ofBits window else ~~~Word.ofBits window)
        position (window.count kind) seen = some found'
      ∧ found'.toList
          ++ samples kind (position + window.length) (seen + window.count kind) rest
        = found.toList ++ samples kind position seen (window ++ rest) := by
  by_cases hgap : gap seen < window.count kind
  · obtain ⟨i, hi⟩ := exists_selectsAt window hgap
    have hlt := hi.lt_length
    have hselect : Word.select? (if kind then Word.ofBits window else ~~~Word.ofBits window)
        (gap seen) = some i := by
      refine Word.select?_eq_some (by omega) (Word.bit_ofBits_of_kind (by omega) hi.bit) ?_
      rw [Word.onesBelow_ofBits_of_kind kind (by omega) (Nat.le_of_lt hlt), hi.count]
    refine ⟨found.push (position + i).toUInt32, ?_, ?_⟩
    · rw [Indexing.sample?, if_pos hgap, hselect, Option.map_some]
    · rw [samples_append_of_selectsAt hi (by omega), Array.toList_push, List.append_assoc,
        List.singleton_append]
  · refine ⟨found, if_neg hgap, ?_⟩
    rw [samples_append_of_le window (Nat.le_of_not_lt hgap)]

end BitVector

/-! ## What is counted after some words -/

namespace Indexing

/-- The records of some blocks once the first `n` words have been reached. -/
structure Reaches (words : List Word) (blocks n : Nat) (ranks : Array RankRecord) : Prop where
  size : ranks.size = blocks + 1
  record : ∀ {b : Nat}, b ≤ blocks → ranks[b]? = some (RankRecord.reached
    (onesIn (words.take (8 * b))) ((words.drop (8 * b)).take 8) (min 8 (n - 8 * b)))

/-- The samples that are asked for are those of the bits of the first `n` words; the bits behind
them give the others. -/
def Gathers (asked kind : Bool) (bits : List Bool) (n : Nat) (found : Array UInt32) : Prop :=
  if asked then
    found.toList ++ BitVector.samples kind (min (64 * n) bits.length)
        (countBefore kind bits (64 * n)) (bits.drop (64 * n))
      = BitVector.samples kind 0 0 bits
  else
    found = #[]

/-- The first `n` words have been counted. -/
structure Counts (bits : List Bool) (sampleZeros sampleOnes : Bool) (n : Nat) (state : Indexing) :
    Prop where
  ranks : Reaches (packBits bits) (blocksOf 512 bits.length) n state.ranks
  ones : state.ones = countBefore true bits (64 * n)
  zeros : sampleZeros = true → state.zeros = countBefore false bits (64 * n)
  zeroSamples : Gathers sampleZeros false bits n state.zeroSamples
  oneSamples : Gathers sampleOnes true bits n state.oneSamples

theorem reaches_zero (words : List Word) (blocks : Nat) :
    Reaches words blocks 0 (Array.replicate (blocks + 1) {}) := by
  refine ⟨Array.size_replicate, ?_⟩
  intro b hb
  have hnone : min 8 (0 - 8 * b) = 0 := by omega
  rw [Array.getElem?_replicate, if_pos (by omega), hnone]
  rfl

theorem gathers_zero (asked kind : Bool) (bits : List Bool) : Gathers asked kind bits 0 #[] := by
  cases asked with
  | false => rfl
  | true => simp [Gathers]

/-- Reaching word `n` writes into the record of its block. -/
theorem Reaches.step {words : List Word} {blocks n : Nat} {ranks : Array RankRecord}
    (h : Reaches words blocks n ranks) (hn : n < 8 * blocks)
    (hones : onesIn (words.take n) < 2 ^ 32) :
    ∃ record reached, ranks[64 * n / 512]? = some record
      ∧ record.reach? (n % 8) (onesIn (words.take n)) = some reached
      ∧ Reaches words blocks (n + 1) (ranks.setIfInBounds (64 * n / 512) reached) := by
  have hblock : 64 * n / 512 = n / 8 := by omega
  have hinside : min 8 (n - 8 * (n / 8)) = n % 8 := by omega
  have hbefore : onesIn (words.take (8 * (n / 8)))
      + onesIn (((words.drop (8 * (n / 8))).take 8).take (n % 8)) = onesIn (words.take n) := by
    rw [List.take_take, Nat.min_eq_left (by omega), ← RankRecord.onesIn_append, ← List.take_add,
      Nat.div_add_mod]
  have hrecord := h.record (show n / 8 ≤ blocks by omega)
  have hreach := RankRecord.reach?_reached (Nat.mod_lt n (show 0 < 8 by decide)) (hbefore ▸ hones)
  rw [hinside] at hrecord
  rw [hbefore] at hreach
  rw [hblock]
  refine ⟨_, _, hrecord, hreach, ?_, ?_⟩
  · rw [Array.size_setIfInBounds, h.size]
  · intro b hb
    rw [Array.getElem?_setIfInBounds]
    by_cases hsame : n / 8 = b
    · have hnext : min 8 (n + 1 - 8 * b) = n % 8 + 1 := by omega
      rw [if_pos hsame, if_pos (by rw [h.size]; omega), hnext, hsame]
    · have hkept : min 8 (n + 1 - 8 * b) = min 8 (n - 8 * b) := by omega
      rw [if_neg hsame, h.record hb, hkept]

/-! ### One word -/

section

variable {bits : List Bool} {n : Nat}

theorem length_window (bits : List Bool) (n : Nat) :
    ((bits.drop (64 * n)).take 64).length = min (bits.length - 64 * n) 64 := by
  rw [List.length_take, List.length_drop, Nat.min_comm]

theorem countBefore_window (kind : Bool) (bits : List Bool) (n : Nat) :
    countBefore kind bits (64 * n) + ((bits.drop (64 * n)).take 64).count kind
      = countBefore kind bits (64 * (n + 1)) := by
  rw [Nat.mul_succ, countBefore_add]
  rfl

/-- The zeros of a word are those of its bits; the complement has more if there are less than 64. -/
theorem zerosOf?_window (hn : 64 * n < bits.length) :
    zerosOf? bits.length n (Word.ofBits ((bits.drop (64 * n)).take 64))
      = some (((bits.drop (64 * n)).take 64).count false) := by
  have hones := Word.ones_ofBits (List.length_take_le 64 (bits.drop (64 * n)))
  have hboth := List.count_true_add_count_false ((bits.drop (64 * n)).take 64)
  rw [length_window] at hboth
  rw [zerosOf?, hones, if_pos ⟨Nat.le_of_lt hn, by omega⟩, ← hboth, Nat.add_sub_cancel_left]

/-- One more word gives the samples of its bits. -/
theorem Gathers.step {kind : Bool} {found : Array UInt32} (h : Gathers true kind bits n found)
    (hn : 64 * n < bits.length) :
    ∃ found', sample? found
        (if kind then Word.ofBits ((bits.drop (64 * n)).take 64)
          else ~~~Word.ofBits ((bits.drop (64 * n)).take 64))
        (64 * n) (((bits.drop (64 * n)).take 64).count kind) (countBefore kind bits (64 * n))
        = some found'
      ∧ Gathers true kind bits (n + 1) found' := by
  obtain ⟨found', hsample, heq⟩ := BitVector.exists_sample? kind
    (List.length_take_le 64 (bits.drop (64 * n))) (64 * n) (countBefore kind bits (64 * n)) found
    (bits.drop (64 * (n + 1)))
  have hplace : min (64 * (n + 1)) bits.length
      = 64 * n + ((bits.drop (64 * n)).take 64).length := by
    rw [length_window]
    omega
  have hstart : min (64 * n) bits.length = 64 * n := by omega
  have hwhole : (bits.drop (64 * n)).take 64 ++ bits.drop (64 * (n + 1))
      = bits.drop (64 * n) := by
    rw [Nat.mul_succ, ← List.drop_drop, List.take_append_drop]
  refine ⟨found', hsample, ?_⟩
  rw [hwhole, countBefore_window, ← hplace] at heq
  unfold Gathers at h ⊢
  rw [if_pos rfl] at h ⊢
  rw [heq, ← h, hstart]

variable {sampleZeros sampleOnes : Bool} {state : Indexing}

theorem exists_zerosBehind? (h : Counts bits sampleZeros sampleOnes n state)
    (hn : 64 * n < bits.length) :
    ∃ found, zerosBehind? sampleZeros bits.length n state
        (Word.ofBits ((bits.drop (64 * n)).take 64)) = some found
      ∧ Gathers sampleZeros false bits (n + 1) found.1
      ∧ (sampleZeros = true → found.2 = countBefore false bits (64 * (n + 1))) := by
  obtain ⟨_, _, hzeros, hgathers, _⟩ := h
  cases sampleZeros with
  | false => exact ⟨_, rfl, hgathers, nofun⟩
  | true =>
    obtain ⟨found, hsample, hnext⟩ := hgathers.step hn
    rw [← hzeros rfl] at hsample
    refine ⟨(found, _), ?_, hnext, fun _ => countBefore_window false bits n⟩
    simp only [zerosBehind?, if_true, zerosOf?_window hn, Option.bind_eq_bind, Option.bind_some]
    rw [← hzeros rfl]
    simp only [Bool.false_eq_true, if_false] at hsample
    rw [hsample, Option.bind_some]

theorem exists_onesBehind? (h : Counts bits sampleZeros sampleOnes n state)
    (hn : 64 * n < bits.length) :
    ∃ found, onesBehind? sampleOnes n state (Word.ofBits ((bits.drop (64 * n)).take 64))
        = some found
      ∧ Gathers sampleOnes true bits (n + 1) found := by
  obtain ⟨_, hones, _, _, hgathers⟩ := h
  cases sampleOnes with
  | false => exact ⟨_, rfl, hgathers⟩
  | true =>
    obtain ⟨found, hsample, hnext⟩ := hgathers.step hn
    refine ⟨found, ?_, hnext⟩
    rw [onesBehind?, if_pos rfl, Word.ones_ofBits (List.length_take_le 64 _), hones]
    exact hsample

/-- A word that lies in the bits is counted. -/
theorem Counts.step (h : Counts bits sampleZeros sampleOnes n state) (hsize : bits.length < 2 ^ 32)
    (hn : 64 * n < bits.length) :
    ∃ next, step? sampleZeros sampleOnes bits.length n state
        (Word.ofBits ((bits.drop (64 * n)).take 64)) = some next
      ∧ Counts bits sampleZeros sampleOnes (n + 1) next := by
  have hcount : countBefore true bits (64 * n) < 2 ^ 32 :=
    Nat.lt_of_le_of_lt (Nat.le_trans (countBefore_le_count _) List.count_le_length) hsize
  have hblocks : n < 8 * blocksOf 512 bits.length := by
    rw [blocksOf]
    omega
  obtain ⟨record, reached, hrecord, hreach, hranks⟩ := h.ranks.step hblocks
    (by rwa [BitVector.onesIn_take_packBits])
  rw [BitVector.onesIn_take_packBits, ← h.ones] at hreach
  obtain ⟨⟨zeroSamples, zeros⟩, hzerosBehind, hzeroSamples, hzeros⟩ := exists_zerosBehind? h hn
  obtain ⟨oneSamples, honesBehind, honeSamples⟩ := exists_onesBehind? h hn
  have hones : state.ones + (Word.ofBits ((bits.drop (64 * n)).take 64)).ones
      = countBefore true bits (64 * (n + 1)) := by
    rw [h.ones, Word.ones_ofBits (List.length_take_le 64 _), countBefore_window]
  refine ⟨{ ranks := state.ranks.setIfInBounds (64 * n / 512) reached, zeroSamples, oneSamples, zeros
            ones := state.ones + (Word.ofBits ((bits.drop (64 * n)).take 64)).ones }, ?_,
    hranks, hones, hzeros, hzeroSamples, honeSamples⟩
  simp only [step?, hrecord, hreach, hzerosBehind, honesBehind, Option.bind_eq_bind,
    Option.bind_some]

/-- All words that are left are counted, one after the other. -/
theorem Counts.steps (hsize : bits.length < 2 ^ 32) :
    ∀ {words : List Word} {n : Nat} {state : Indexing}, (packBits bits).drop n = words →
    Counts bits sampleZeros sampleOnes n state →
    ∃ last, steps? sampleZeros sampleOnes bits.length n words state = some last
      ∧ Counts bits sampleZeros sampleOnes (n + words.length) last
  | [], _, state, _, h => ⟨state, rfl, h⟩
  | word :: words, n, state, hwords, h => by
      have hlt : n < (packBits bits).length := by
        by_contra hge
        rw [List.drop_eq_nil_of_le (Nat.le_of_not_lt hge)] at hwords
        cases hwords
      have hn : 64 * n < bits.length := by
        rwa [BitVector.length_packBits, lt_blocksOf (by decide)] at hlt
      rw [List.drop_eq_getElem_cons hlt] at hwords
      obtain ⟨hword, hrest⟩ := List.cons.inj hwords
      have hat := packBits_getElem? hn
      rw [List.getElem?_eq_getElem hlt, hword] at hat
      obtain ⟨next, hstep, hnext⟩ := h.step hsize hn
      rw [← Option.some.inj hat] at hstep
      obtain ⟨last, hsteps, hlast⟩ := hnext.steps hsize hrest
      refine ⟨last, ?_, ?_⟩
      · rw [steps?, hstep, Option.bind_eq_bind, Option.bind_some, hsteps]
      · rwa [List.length_cons, Nat.add_comm words.length, ← Nat.add_assoc]

/-! ### Behind the last word -/

theorem Gathers.finish {asked kind : Bool} {found : Array UInt32}
    (h : Gathers asked kind bits n found) (hn : bits.length ≤ 64 * n) :
    (if asked then found.push bits.length.toUInt32 else found)
      = if asked then (BitVector.samples kind 0 0 bits).toArray else #[] := by
  unfold Gathers at h
  cases asked with
  | false => exact h
  | true =>
    rw [if_pos rfl, List.drop_eq_nil_of_le hn, Nat.min_eq_right hn] at h
    rw [if_pos rfl, if_pos rfl, ← h, BitVector.samples]
    apply Array.ext'
    rw [Array.toList_push]

/-- The words that the last block lacks are reached, and then all records but the last are those of
their blocks. -/
theorem Reaches.fillLast {ranks : Array RankRecord}
    (h : Reaches (packBits bits) (blocksOf 512 bits.length) (packBits bits).length ranks)
    (hsize : bits.length < 2 ^ 32) :
    ∃ filled, fillLast? bits.length (bits.count true) ranks = some filled
      ∧ filled.size = blocksOf 512 bits.length + 1
      ∧ filled[blocksOf 512 bits.length]? = some {}
      ∧ ∀ b, b < blocksOf 512 bits.length → filled[b]? = some (RankRecord.ofBlock
        (onesIn ((packBits bits).take (8 * b))) (((packBits bits).drop (8 * b)).take 8)) := by
  have hwords : (packBits bits).length = (bits.length + 63) / 64 := BitVector.length_packBits bits
  have hblocks : blocksOf 512 bits.length = (bits.length + 511) / 512 := rfl
  have hlast : ranks[blocksOf 512 bits.length]? = some {} := by
    have hnone : min 8 ((packBits bits).length - 8 * blocksOf 512 bits.length) = 0 := by omega
    rw [h.record (Nat.le_refl _), hnone]
    rfl
  have hfull : ∀ b, 512 * (b + 1) ≤ bits.length → ranks[b]? = some (RankRecord.ofBlock
      (onesIn ((packBits bits).take (8 * b))) (((packBits bits).drop (8 * b)).take 8)) := by
    intro b hb
    have height : min 8 ((packBits bits).length - 8 * b) = 8 := by omega
    rw [h.record (by omega), height, RankRecord.reached_eight]
  unfold fillLast?
  by_cases hwhole : bits.length % 512 = 0
  · refine ⟨ranks, if_pos hwhole, h.size, hlast, ?_⟩
    intro b hb
    exact hfull b (by omega)
  · -- The last block has words up to the one of the last bit, and these hold all ones that are left.
    have hrecord := h.record (show (bits.length - 1) / 512 ≤ blocksOf 512 bits.length by omega)
    have hinside : min 8 ((packBits bits).length - 8 * ((bits.length - 1) / 512))
        = (bits.length - 1) / 64 % 8 + 1 := by omega
    have hones : onesIn ((packBits bits).take (8 * ((bits.length - 1) / 512)))
        + onesIn (((packBits bits).drop (8 * ((bits.length - 1) / 512))).take 8)
        = bits.count true := by
      rw [← RankRecord.onesIn_append, ← List.take_add, BitVector.onesIn_take_packBits,
        countBefore_of_length_le (by omega)]
    have hlength : (((packBits bits).drop (8 * ((bits.length - 1) / 512))).take 8).length
        ≤ (bits.length - 1) / 64 % 8 + 1 := by
      rw [List.length_take, List.length_drop]
      omega
    have hcount : bits.count true < 2 ^ 32 := Nat.lt_of_le_of_lt List.count_le_length hsize
    have hfill := RankRecord.foldlM_reach? (hones ▸ hcount) hlength
      (n := 7 - (bits.length - 1) / 64 % 8) (by omega)
    have height : (bits.length - 1) / 64 % 8 + 1 + (7 - (bits.length - 1) / 64 % 8) = 8 := by omega
    rw [hones, height, RankRecord.reached_eight] at hfill
    rw [hinside] at hrecord
    refine ⟨ranks.setIfInBounds ((bits.length - 1) / 512) (RankRecord.ofBlock
      (onesIn ((packBits bits).take (8 * ((bits.length - 1) / 512))))
      (((packBits bits).drop (8 * ((bits.length - 1) / 512))).take 8)), ?_, ?_, ?_, ?_⟩
    · simp only [if_neg hwhole, hrecord, hfill, Option.bind_eq_bind, Option.bind_some]
    · rw [Array.size_setIfInBounds, h.size]
    · rw [Array.getElem?_setIfInBounds, if_neg (by omega), hlast]
    · intro b hb
      rw [Array.getElem?_setIfInBounds]
      by_cases hsame : (bits.length - 1) / 512 = b
      · rw [if_pos hsame, if_pos (by rw [h.size]; omega), hsame]
      · rw [if_neg hsame, hfull b (by omega)]

/-- With the total in the last record the records are those of the blocks. -/
theorem set_total {ranks : Array RankRecord} (hranks : ranks.size = blocksOf 512 bits.length + 1)
    (hblocks : ∀ b, b < blocksOf 512 bits.length → ranks[b]? = some (RankRecord.ofBlock
      (onesIn ((packBits bits).take (8 * b))) (((packBits bits).drop (8 * b)).take 8))) :
    ranks.setIfInBounds (blocksOf 512 bits.length)
        (({} : RankRecord).setAbs (bits.count true))
      = (BitVector.rankRecords (blocksOf 512 bits.length) 0 (packBits bits)).toArray := by
  have hwords : (packBits bits).length ≤ 8 * blocksOf 512 bits.length := by
    rw [BitVector.length_packBits, blocksOf, blocksOf]
    omega
  apply Array.ext_getElem?
  intro b
  have hright : (BitVector.rankRecords (blocksOf 512 bits.length) 0 (packBits bits)).toArray[b]?
      = (BitVector.rankRecords (blocksOf 512 bits.length) 0 (packBits bits))[b]? :=
    List.getElem?_toArray
  rw [Array.getElem?_setIfInBounds, hright]
  rcases Nat.lt_trichotomy b (blocksOf 512 bits.length) with hb | rfl | hb
  · rw [if_neg (Nat.ne_of_gt hb), hblocks b hb,
      BitVector.rankRecords_getElem? _ 0 _ b (Nat.le_of_lt hb) hwords, Nat.zero_add]
  · have htotal : onesIn ((packBits bits).take (8 * blocksOf 512 bits.length))
        = bits.count true := by
      have hfull := le_mul_blocksOf (show 0 < 512 by decide) bits.length
      rw [BitVector.onesIn_take_packBits, countBefore_of_length_le (by omega)]
    rw [if_pos rfl, if_pos (by omega),
      BitVector.rankRecords_getElem? _ 0 _ _ (Nat.le_refl _) hwords, htotal, Nat.zero_add,
      List.drop_eq_nil_of_le hwords, List.take_nil, RankRecord.ofBlock_nil]
  · rw [if_neg (Nat.ne_of_lt hb), Array.getElem?_eq_none (by omega),
      List.getElem?_eq_none (by rw [BitVector.length_rankRecords]; omega)]

end

end Indexing

/-! ## The whole index -/

namespace BitVector

variable {bits : List Bool} {zeros ones : Bool}

/-- The pass over the words of some bits comes to their index. -/
theorem index?_packBits (hsize : bits.length < 2 ^ 32) :
    { empty with words := (packBits bits).toArray, size := bits.length
                 ones := bits.count true : BitVector }.index? zeros ones
      = some (ofBits bits zeros ones) := by
  have hstart : Indexing.Counts bits zeros ones 0
      { ranks := Array.replicate (blocksOf 512 bits.length + 1) {} } :=
    ⟨Indexing.reaches_zero _ _, countBefore_zero.symm, fun _ => countBefore_zero.symm,
      Indexing.gathers_zero zeros false bits, Indexing.gathers_zero ones true bits⟩
  obtain ⟨last, hsteps, hlast⟩ := hstart.steps hsize List.drop_zero
  rw [Nat.zero_add] at hlast
  have hall : bits.length ≤ 64 * (packBits bits).length := by
    rw [length_packBits]
    exact le_mul_blocksOf (by decide) _
  have hones : last.ones = bits.count true := by
    rw [hlast.ones, countBefore_of_length_le hall]
  have hcount : bits.count true < UInt32.size := Nat.lt_of_le_of_lt List.count_le_length hsize
  obtain ⟨filled, hfill, hfilled, hlastRecord, hblocks⟩ := hlast.ranks.fillLast hsize
  have hzeroSamples := hlast.zeroSamples.finish hall
  have honeSamples := hlast.oneSamples.finish hall
  simp only [index?, hsteps, hones, hfill, hlastRecord, RankRecord.setAbs?, hcount, hzeroSamples,
    honeSamples, Indexing.set_total hfilled hblocks, Option.bind_eq_bind, Option.bind_some, if_true]
  rfl

end BitVector

/-! ## Taking bits -/

namespace BitBuilder

open PackedVector (HoldBits holdBits_packBits)

/-- The bits with room for one more, which is not set. -/
theorem holdBits_opened (bits : List Bool) :
    ∃ words : Array Word,
      (if bits.length % 64 = 0 then (packBits bits).toArray.push 0 else (packBits bits).toArray)
        = words
      ∧ words.size = bits.length / 64 + 1 ∧ HoldBits words fun p => bits.getD p false := by
  have hsize : (packBits bits).toArray.size = (bits.length + 63) / 64 :=
    BitVector.length_packBits bits
  have hold := holdBits_packBits bits
  by_cases hfull : bits.length % 64 = 0
  · refine ⟨_, if_pos hfull, ?_, ?_⟩
    · rw [Array.size_push]
      omega
    · intro k word hword j hj
      rw [Array.getElem?_push] at hword
      split at hword
      · have hout : bits.length ≤ 64 * k + j := by omega
        obtain rfl := Option.some.inj hword
        have hnone : bits.getD (64 * k + j) false = false := by
          rw [List.getD_eq_getElem?_getD, List.getElem?_eq_none hout]
          rfl
        exact (Nat.zero_testBit j).trans hnone.symm
      · exact hold k word hword j hj
  · exact ⟨_, if_neg hfull, by omega, hold⟩

/-- The bit for the next position stands in its word where the position does. -/
theorem testBit_next {n j : Nat} (hj : j < 64) :
    (1 <<< (n % 64).toUInt64 : Word).toNat.testBit j = decide (64 * (n / 64) + j = n) := by
  have hn : n % 64 < 64 := Nat.mod_lt _ (by decide)
  have hone : (1 : Word).toNat.testBit (j - n % 64) = decide (j - n % 64 = 0) := by
    rw [show (1 : Word).toNat = 2 ^ 0 from rfl, Nat.testBit_two_pow, decide_eq_decide]
    exact eq_comm
  rw [PackedVector.testBit_shiftLeft _ hn hj, hone, Bool.eq_iff_iff]
  simp only [Bool.and_eq_true, decide_eq_true_eq]
  omega

theorem getD_append_singleton (bits : List Bool) (b : Bool) (p : Nat) :
    (bits ++ [b]).getD p false = (bits.getD p false || (decide (p = bits.length) && b)) := by
  rw [List.getD_eq_getElem?_getD, List.getD_eq_getElem?_getD, List.getElem?_append]
  rcases Nat.lt_trichotomy p bits.length with hp | rfl | hp
  · rw [if_pos hp, decide_eq_false (Nat.ne_of_lt hp), Bool.false_and, Bool.or_false]
  · simp
  · have hp' : ¬p < bits.length := by omega
    rw [if_neg hp', List.getElem?_eq_none (by simp; omega), List.getElem?_eq_none (by omega),
      decide_eq_false (Nat.ne_of_gt hp)]
    rfl

/-- A bit that is taken comes behind the bits that are packed. -/
theorem push_packBits (bits : List Bool) (b : Bool) :
    push ⟨(packBits bits).toArray, bits.length, bits.count true⟩ b
      = ⟨(packBits (bits ++ [b])).toArray, (bits ++ [b]).length, (bits ++ [b]).count true⟩ := by
  obtain ⟨words, hopened, hsize, hold⟩ := holdBits_opened bits
  have hgoal : HoldBits (packBits (bits ++ [b])).toArray fun p =>
      (bits.getD p false || (decide (p = bits.length) && b)) := by
    simpa only [getD_append_singleton] using holdBits_packBits (bits ++ [b])
  have hsize' : words.size = (packBits (bits ++ [b])).toArray.size := by
    rw [hsize, List.size_toArray, BitVector.length_packBits, List.length_append,
      List.length_singleton, blocksOf]
    omega
  simp only [push, hopened]
  cases b with
  | false =>
    simp only [Bool.and_false, Bool.or_false] at hgoal
    simp [hold.ext hgoal hsize', List.count_append]
  | true =>
    obtain ⟨last, hlast⟩ : ∃ last, words[bits.length / 64]? = some last :=
      ⟨_, Array.getElem?_eq_getElem (by omega)⟩
    have hback : words.back? = some last := by rw [Array.back?, hsize, Nat.add_sub_cancel, hlast]
    have hset : HoldBits (words.setIfInBounds (bits.length / 64)
        (last ||| (1 <<< (bits.length % 64).toUInt64))) fun p => bits.getD p false
          || (decide (p / 64 = bits.length / 64) && decide (p = bits.length)) :=
      hold.or hlast fun j hj => testBit_next hj
    have hmarked : (fun p => bits.getD p false
          || (decide (p / 64 = bits.length / 64) && decide (p = bits.length)))
        = fun p => bits.getD p false || (decide (p = bits.length) && true) := by
      funext p
      by_cases hp : p = bits.length
      · rw [hp, decide_eq_true rfl, Bool.true_and, Bool.and_true, decide_eq_true rfl]
      · rw [decide_eq_false hp, Bool.and_false, Bool.false_and]
    rw [hmarked] at hset
    have hwords := hset.ext hgoal (by rw [Array.size_setIfInBounds, hsize'])
    simp [hback, hsize, hwords, List.count_append]

/-- Taking the bits one by one packs and counts them. -/
theorem foldl_push (bits : List Bool) :
    bits.foldl push {} = ⟨(packBits bits).toArray, bits.length, bits.count true⟩ := by
  induction bits using List.reverseRecOn with
  | nil => rfl
  | append_singleton bits b ih =>
    rw [List.foldl_append, ih, List.foldl_cons, List.foldl_nil, push_packBits]

end BitBuilder

/-! ## What the index holds -/

namespace BitVector

variable {bits : List Bool} {zeros ones : Bool}

/-- The records of some bits, one for each block and one for the total. The ones before a word that
is past the end are all that are left in its block, and every count has room in its field. -/
structure RecordsOf (bits : List Bool) (ranks : Array RankRecord) : Prop where
  size : ranks.size = blocksOf 512 bits.length + 1
  abs : ∀ {b : Nat} {record : RankRecord}, ranks[b]? = some record →
    record.abs = (bits.take (512 * b)).count true
  total : ∀ {record : RankRecord}, ranks[blocksOf 512 bits.length]? = some record →
    record.abs = bits.count true
  rel : ∀ {b j : Nat} {record : RankRecord}, ranks[b]? = some record → j ≤ 7 →
    record.rel j = (((bits.drop (512 * b)).take 512).take (64 * j)).count true
  past : ∀ {b j : Nat} {record : RankRecord}, ranks[b]? = some record → j ≤ 7 →
    bits.length ≤ 512 * b + 64 * j →
    record.rel j = ((bits.drop (512 * b)).take 512).count true
  abs_fits : ∀ b : Nat, (bits.take (512 * b)).count true < 2 ^ 32
  rel_fits : ∀ {b j : Nat}, 1 ≤ j → j ≤ 7 →
    (((bits.drop (512 * b)).take 512).take (64 * j)).count true
      < 2 ^ (RankRecord.field j).width.toNat

/-- The samples of the bits of one kind: the positions of those with numbers 0, 512, 1024, …, and
the number of all bits behind them. -/
structure SamplesOf (kind : Bool) (bits : List Bool) (found : Array UInt32) : Prop where
  size : found.size = blocksOf 512 (bits.count kind) + 1
  position : ∀ {i : Nat}, 512 * i < bits.count kind →
    ∃ p, found[i]? = some p ∧ SelectsAt kind bits (512 * i) p.toNat
  sentinel : ∃ p, found[blocksOf 512 (bits.count kind)]? = some p ∧ p.toNat = bits.length

theorem recordsOf_ofBits (hsize : bits.length < 2 ^ 32) :
    RecordsOf bits (ofBits bits zeros ones).ranks := by
  have hinside : ∀ {b : Nat} {record : RankRecord},
      (ofBits bits zeros ones).ranks[b]? = some record → b ≤ blocksOf 512 bits.length := by
    intro b record hrecord
    have hlt := (Array.getElem?_eq_some_iff.mp hrecord).1
    rw [size_ranks_ofBits] at hlt
    omega
  have hrel : ∀ {b j : Nat} {record : RankRecord},
      (ofBits bits zeros ones).ranks[b]? = some record → j ≤ 7 →
      record.rel j = (((bits.drop (512 * b)).take 512).take (64 * j)).count true := by
    intro b j record hrecord hj
    have habs := abs_ranks hsize (hinside hrecord) hrecord
    have hboth := abs_add_rel_ranks hsize (hinside hrecord) hj hrecord
    have hplace : 64 * (8 * b + j) = 512 * b + 64 * j := by omega
    rw [habs, hplace, countBefore_add] at hboth
    rw [List.take_take, Nat.min_eq_left (by omega)]
    exact Nat.add_left_cancel hboth
  refine ⟨size_ranks_ofBits, ?_, ?_, hrel, ?_, ?_, ?_⟩
  · intro b record hrecord
    exact abs_ranks hsize (hinside hrecord) hrecord
  · intro record hrecord
    have hfull := le_mul_blocksOf (show 0 < 512 by decide) bits.length
    rw [abs_ranks hsize (Nat.le_refl _) hrecord, countBefore_of_length_le hfull]
  · intro b j record hrecord hj hpast
    rw [hrel hrecord hj, List.take_of_length_le]
    rw [List.length_take, List.length_drop]
    omega
  · intro b
    exact Nat.lt_of_le_of_lt (Nat.le_trans (countBefore_le_count _) List.count_le_length) hsize
  · intro b j hj hj'
    exact Nat.lt_of_le_of_lt (countBefore_le _) (RankRecord.lt_two_pow_width hj hj')

theorem samplesOf_samples (hsize : bits.length < 2 ^ 32) (kind : Bool) :
    SamplesOf kind bits (samples kind 0 0 bits).toArray := by
  refine ⟨?_, ?_, ?_⟩
  · have hlength := length_samples kind bits 0 0
    rwa [Nat.zero_add] at hlength
  · intro i hi
    obtain ⟨p, hp⟩ := exists_selectsAt bits hi
    have hlt := hp.lt_length
    refine ⟨p.toUInt32, List.getElem?_toArray.trans (sample_of_selectsAt hp), ?_⟩
    rwa [toNat_toUInt32 (by omega)]
  · exact ⟨bits.length.toUInt32, List.getElem?_toArray.trans (sample_end kind bits),
      toNat_toUInt32 hsize⟩

/-- The index holds what it says. Whatever bits are taken one after the other, if they are not too
many the pass over their words comes to an end and gives the records of their blocks, with the
samples of each kind that is asked for and without those of the others. -/
theorem index_exact (hsize : bits.length < 2 ^ 32) (zeros ones : Bool) :
    ∃ v, (bits.foldl BitBuilder.push {}).build? zeros ones = some v
      ∧ v = ofBits bits zeros ones
      ∧ RecordsOf bits v.ranks
      ∧ (if zeros then SamplesOf false bits v.zeroSamples else v.zeroSamples = #[])
      ∧ (if ones then SamplesOf true bits v.oneSamples else v.oneSamples = #[]) := by
  refine ⟨ofBits bits zeros ones, ?_, rfl, recordsOf_ofBits hsize, ?_, ?_⟩
  · rw [BitBuilder.foldl_push, BitBuilder.build?, if_pos (show _ < UInt32.size from hsize),
      index?_packBits hsize]
  · cases zeros with
    | false => rfl
    | true => exact samplesOf_samples hsize false
  · cases ones with
    | false => rfl
    | true => exact samplesOf_samples hsize true

/-- A block of zeros and one bit more: the second block has a single word, and its record counts the
one before all the words that it lacks. The one is the first of its kind. -/
theorem index_exact_one_more : ∃ v record p,
    ((List.replicate 512 false ++ [true]).foldl BitBuilder.push {}).build? true true = some v
      ∧ v.ranks.size = 3 ∧ v.ranks[1]? = some record ∧ record.rel 7 = 1
      ∧ v.zeroSamples.size = 2 ∧ v.oneSamples[0]? = some p ∧ p.toNat = 512 := by
  have hlength : (List.replicate 512 false ++ [true]).length = 513 := by
    rw [List.length_append, List.length_replicate, List.length_singleton]
  have hcount : (List.replicate 512 false ++ [true]).count false = 512 := by
    rw [List.count_append, List.count_replicate]
    rfl
  have hone : SelectsAt true (List.replicate 512 false ++ [true]) 0 512 := by
    constructor
    · rw [List.getElem?_append_right (by rw [List.length_replicate]), List.length_replicate]
      rfl
    · rw [countBefore_append_of_le (by rw [List.length_replicate]), countBefore,
        List.take_replicate, List.count_replicate]
      rfl
  obtain ⟨v, hbuild, _, hranks, hzeros, hones⟩ := index_exact
    (show (List.replicate 512 false ++ [true]).length < 2 ^ 32 by rw [hlength]; decide) true true
  have hsize := hranks.size
  rw [hlength] at hsize
  obtain ⟨record, hrecord⟩ : ∃ record, v.ranks[1]? = some record :=
    ⟨_, Array.getElem?_eq_getElem (by rw [hsize]; decide)⟩
  obtain ⟨p, hp, hselects⟩ := SamplesOf.position hones (i := 0) hone.lt_count
  refine ⟨v, record, p, hbuild, hsize, hrecord, ?_, ?_, hp, hselects.unique hone⟩
  · rw [hranks.past hrecord (Nat.le_refl 7) (by rw [hlength]; decide), List.drop_append,
      List.length_replicate, List.drop_replicate]
    rfl
  · have hsamples := SamplesOf.size hzeros
    rwa [hcount] at hsamples

end BitVector

end Lexicon
