/-
Lexicon.Proofs.Bits.Words — what a packed word holds and how its bits are found.

`bit_ofBits` reads a packed word as the list it was made from, and `packBits_getElem?`
finds in a packed list the word of each window of 64 bits. Counts over a packed
word are counts over the window (`onesFrom_ofBits`), and `select?_eq_some` is the
contract of the search inside a word, for every word: a set bit with `k` set bits
below it is found.
-/
import Lexicon.Bits.Word
import Lexicon.Proofs.Bits.Counting

namespace Lexicon

/-- A number below the end of a word is kept by it. -/
theorem toNat_toUInt32 {n : Nat} (h : n < 2 ^ 32) : n.toUInt32.toNat = n := by
  rw [Nat.toUInt32_eq, UInt32.toNat_ofNat', Nat.mod_eq_of_lt h]

theorem toNat_toUInt64 {n : Nat} (h : n < 2 ^ 64) : n.toUInt64.toNat = n := by
  rw [Nat.toUInt64_eq, UInt64.toNat_ofNat', Nat.mod_eq_of_lt h]

namespace Word

/-- A word is shifted by any number below its length. -/
theorem toNat_shift {s : Nat} (hs : s < 64) : s.toUInt64.toNat % 64 = s := by
  rw [toNat_toUInt64 (by omega), Nat.mod_eq_of_lt hs]

/-! ## The bits of a word -/

/-- Bit `i` of a word is binary digit `i` of its value. -/
theorem bit_eq_testBit (w : Word) {i : Nat} (hi : i < 64) : w.bit i = w.toNat.testBit i := by
  have hand : ((w >>> i.toUInt64) &&& 1).toNat = w.toNat / 2 ^ i % 2 := by
    rw [UInt64.toNat_and, UInt64.toNat_shiftRight, toNat_shift hi, Nat.shiftRight_eq_div_pow]
    exact Nat.and_one_is_mod _
  rw [Nat.testBit_eq_decide_div_mod_eq, ← hand, bit, Bool.eq_iff_iff, beq_iff_eq,
    decide_eq_true_iff, ← UInt64.toNat_inj]
  rfl

/-- Pushing a bit below a word moves the digits of the word up by one. -/
theorem testBit_push (b : Bool) (w : Word) {i : Nat} (hi : i < 64) :
    ((w <<< 1) ||| (if b then 1 else 0) : Word).toNat.testBit i
      = if i = 0 then b else w.toNat.testBit (i - 1) := by
  have hlow : (if b then 1 else 0 : Word).toNat.testBit i = (decide (i = 0) && b) := by
    cases b with
    | false => simp
    | true => simpa [eq_comm] using Nat.testBit_two_pow (n := 0) (m := i)
  have hhigh : (w <<< 1).toNat.testBit i = (decide (1 ≤ i) && w.toNat.testBit (i - 1)) := by
    rw [UInt64.toNat_shiftLeft, Nat.testBit_mod_two_pow, Nat.testBit_shiftLeft]
    simp [hi]
  rw [UInt64.toNat_or, Nat.testBit_or, hlow, hhigh]
  by_cases h : i = 0
  · simp [h]
  · simp [h, Nat.one_le_iff_ne_zero]

theorem testBit_ofBits : ∀ (bits : List Bool) {i : Nat}, i < 64 →
    (ofBits bits).toNat.testBit i = bits.getD i false
  | [], i, _ => by simp [ofBits]
  | b :: bits, i, hi => by
      rw [ofBits, List.foldr_cons, ← ofBits, testBit_push b (ofBits bits) hi]
      cases i with
      | zero => simp
      | succ i => simpa using testBit_ofBits bits (by omega)

/-- Bit `i` of a packed word is entry `i` of its list, and false past the end of it. -/
theorem bit_ofBits (bits : List Bool) {i : Nat} (hi : i < 64) :
    (ofBits bits).bit i = bits.getD i false := by
  rw [bit_eq_testBit _ hi, testBit_ofBits bits hi]

/-- The complement of a word has the other bits. -/
theorem bit_complement (w : Word) {i : Nat} (hi : i < 64) : (~~~w).bit i = !w.bit i := by
  rw [bit_eq_testBit _ hi, bit_eq_testBit _ hi, ← UInt64.toNat_toBitVec, ← UInt64.toNat_toBitVec,
    UInt64.toBitVec_not]
  show (~~~w.toBitVec).getLsbD i = !w.toBitVec.getLsbD i
  rw [BitVec.getLsbD_not]
  simp [hi]

/-! ## Counting -/

/-- Counting goes on behind the first positions. -/
theorem onesFrom_add (w : Word) (i m n : Nat) :
    w.onesFrom i (m + n) = w.onesFrom i m + w.onesFrom (i + m) n := by
  induction m generalizing i with
  | zero => simp [onesFrom]
  | succ m ih =>
    rw [Nat.add_right_comm, onesFrom, onesFrom, ih, Nat.add_right_comm i 1 m,
      Nat.add_assoc i m 1, Nat.add_assoc]

/-- The set bits of a packed word are the ones of the list. -/
theorem onesFrom_ofBits (bits : List Bool) (i n : Nat) (h : i + n ≤ 64) :
    (ofBits bits).onesFrom i n = countBefore true (bits.drop i) n := by
  induction n generalizing i with
  | zero => simp [onesFrom]
  | succ n ih =>
    rw [onesFrom, bit_ofBits bits (by omega), ih (i + 1) (by omega), Nat.add_comm n 1,
      countBefore_add, List.drop_drop]
    congr 1
    rw [countBefore, List.take_one, List.head?_drop, List.getD_eq_getElem?_getD]
    cases bits[i]? with
    | none => rfl
    | some b => cases b <;> rfl

theorem onesBelow_ofBits (bits : List Bool) {n : Nat} (h : n ≤ 64) :
    (ofBits bits).onesBelow n = countBefore true bits n := by
  rw [onesBelow, onesFrom_ofBits bits 0 n (by omega), List.drop_zero]

theorem ones_ofBits {bits : List Bool} (h : bits.length ≤ 64) :
    (ofBits bits).ones = bits.count true := by
  rw [ones, onesBelow_ofBits bits (Nat.le_refl 64), countBefore_of_length_le h]

/-- In the complement the zeros are counted. -/
theorem onesFrom_complement_add (w : Word) (i n : Nat) (h : i + n ≤ 64) :
    (~~~w).onesFrom i n + w.onesFrom i n = n := by
  induction n generalizing i with
  | zero => rfl
  | succ n ih =>
    have hrest := ih (i + 1) (by omega)
    have hone : (!w.bit i).toNat + (w.bit i).toNat = 1 := by cases w.bit i <;> rfl
    rw [onesFrom, onesFrom, bit_complement w (by omega)]
    omega

/-- The bits of a kind at the low end of a packed word: zeros are counted in the complement. -/
theorem onesBelow_ofBits_of_kind (kind : Bool) {bits : List Bool} {n : Nat} (hn : n ≤ 64)
    (hlength : n ≤ bits.length) :
    (if kind then ofBits bits else ~~~ofBits bits).onesBelow n = countBefore kind bits n := by
  cases kind with
  | true => exact onesBelow_ofBits bits hn
  | false =>
    have hsum := countBefore_true_add_false hlength
    have hcomplement := onesFrom_complement_add (ofBits bits) 0 n (by omega)
    have hones := onesBelow_ofBits bits hn
    simp only [onesBelow, Bool.false_eq_true, if_false] at hones ⊢
    omega

/-- A bit of a kind is a set bit of the packed word or of its complement. -/
theorem bit_ofBits_of_kind {kind : Bool} {bits : List Bool} {i : Nat} (hi : i < 64)
    (h : bits[i]? = some kind) :
    (if kind then ofBits bits else ~~~ofBits bits).bit i = true := by
  have hbit : (ofBits bits).bit i = kind := by
    rw [bit_ofBits bits hi, List.getD_eq_getElem?_getD, h]
    rfl
  cases kind with
  | true => exact hbit
  | false =>
    simp only [Bool.false_eq_true, if_false]
    rw [bit_complement _ hi, hbit]
    rfl

/-! ## The search inside a word -/

/-- A set bit adds one to the count. -/
theorem onesFrom_succ_of_bit {w : Word} {i n : Nat} (h : w.bit (i + n) = true) :
    w.onesFrom i (n + 1) = w.onesFrom i n + 1 := by
  rw [onesFrom_add, onesFrom, onesFrom, h]
  rfl

theorem onesFrom_mono (w : Word) (i : Nat) {m n : Nat} (h : m ≤ n) :
    w.onesFrom i m ≤ w.onesFrom i n := by
  obtain ⟨d, rfl⟩ := Nat.exists_eq_add_of_le h
  rw [onesFrom_add]
  exact Nat.le_add_right _ _

theorem selectBit_eq_some {w : Word} : ∀ {left k i d : Nat}, d < left →
    w.bit (i + d) = true → w.onesFrom i d = k → w.selectBit k i left = some (i + d)
  | left + 1, k, i, 0, _, hbit, hones => by
      have hk : k = 0 := hones.symm
      rw [Nat.add_zero] at hbit
      rw [selectBit, if_pos hbit, if_pos hk]
      rfl
  | left + 1, k, i, d + 1, hd, hbit, hones => by
      rw [onesFrom] at hones
      rw [← Nat.add_assoc, Nat.add_right_comm] at hbit
      have hnext : w.selectBit (w.onesFrom (i + 1) d) (i + 1) left = some (i + 1 + d) :=
        selectBit_eq_some (by omega) hbit rfl
      rw [selectBit, Nat.add_comm d 1, ← Nat.add_assoc]
      by_cases hi : w.bit i = true
      · rw [hi] at hones
        have hk : k ≠ 0 := by
          simp only [Bool.toNat_true] at hones
          omega
        have hpred : k - 1 = w.onesFrom (i + 1) d := by
          simp only [Bool.toNat_true] at hones
          omega
        rw [if_pos hi, if_neg hk, hpred, hnext]
      · have hfalse : w.bit i = false := by simpa using hi
        rw [hfalse] at hones
        have hsame : k = w.onesFrom (i + 1) d := by
          rw [← hones]
          simp
        rw [if_neg hi, hsame, hnext]

/-- Whole bytes are skipped as long as their ones do not reach the bit. -/
theorem selectByte_eq_some {w : Word} : ∀ {left k i d : Nat}, d < 8 * left →
    w.bit (i + d) = true → w.onesFrom i d = k → w.selectByte k i left = some (i + d)
  | left + 1, k, i, d, hd, hbit, hones => by
      rw [selectByte]
      by_cases hk : k < w.onesFrom i 8
      · have hbyte : d < 8 := by
          by_contra hge
          have hmono := onesFrom_mono w i (show 8 ≤ d by omega)
          omega
        simp only [hk, if_true]
        exact selectBit_eq_some hbyte hbit hones
      · have hbyte : 8 ≤ d := by
          by_contra hlt
          have hmono := onesFrom_mono w i (show d + 1 ≤ 8 by omega)
          rw [onesFrom_succ_of_bit hbit] at hmono
          omega
        obtain ⟨e, rfl⟩ := Nat.exists_eq_add_of_le hbyte
        rw [onesFrom_add] at hones
        rw [← Nat.add_assoc] at hbit ⊢
        simp only [hk, if_false]
        exact selectByte_eq_some (by omega) hbit (by omega)

/-- A set bit is found by the number of set bits below it. -/
theorem select?_eq_some {w : Word} {k p : Nat} (hp : p < 64) (hbit : w.bit p = true)
    (hones : w.onesBelow p = k) : w.select? k = some p := by
  have hfound : w.selectByte k 0 8 = some (0 + p) :=
    selectByte_eq_some (by omega) (by rwa [Nat.zero_add]) hones
  rwa [Nat.zero_add] at hfound

/-! ## Packed lists -/

theorem pack_getElem? : ∀ (n : Nat) (bits : List Bool) (k : Nat),
    (pack n bits)[k]? = if k < n then some (ofBits ((bits.drop (64 * k)).take 64)) else none
  | 0, bits, k => by simp [pack]
  | n + 1, bits, 0 => by simp [pack]
  | n + 1, bits, k + 1 => by
      rw [pack, List.getElem?_cons_succ, pack_getElem? n (bits.drop 64) k, List.drop_drop]
      simp [Nat.mul_add, Nat.add_comm 64]

@[simp] theorem length_pack (n : Nat) (bits : List Bool) : (pack n bits).length = n := by
  induction n generalizing bits with
  | zero => rfl
  | succ n ih => rw [pack, List.length_cons, ih]

theorem take_pack : ∀ (j n : Nat) (bits : List Bool), (pack n bits).take j = pack (min j n) bits
  | 0, n, bits => by simp [pack]
  | j + 1, 0, bits => by simp [pack]
  | j + 1, n + 1, bits => by
      rw [pack, List.take_succ_cons, take_pack j n, Nat.succ_min_succ, pack]

end Word

/-! ## Blocks -/

/-- Block `k` of the blocks that hold `n` items starts before the end of the items. -/
theorem lt_blocksOf {width : Nat} (hwidth : 0 < width) {k n : Nat} :
    k < blocksOf width n ↔ width * k < n := by
  rw [blocksOf, Nat.lt_iff_add_one_le, Nat.le_div_iff_mul_le hwidth, Nat.add_mul, Nat.mul_comm k]
  omega

/-- The blocks that hold `n` items have room for them. -/
theorem le_mul_blocksOf {width : Nat} (hwidth : 0 < width) (n : Nat) :
    n ≤ width * blocksOf width n := by
  by_contra h
  exact Nat.lt_irrefl _ ((lt_blocksOf hwidth).mpr (Nat.lt_of_not_le h))

/-- The word of every window that starts inside the list. -/
theorem packBits_getElem? {bits : List Bool} {k : Nat} (h : 64 * k < bits.length) :
    (packBits bits)[k]? = some (Word.ofBits ((bits.drop (64 * k)).take 64)) := by
  rw [packBits, Word.pack_getElem?, if_pos ((lt_blocksOf (by decide)).mpr h)]

end Lexicon
