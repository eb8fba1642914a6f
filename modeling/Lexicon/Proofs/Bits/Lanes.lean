/-
Lexicon.Proofs.Bits.Lanes — a word as eight lanes of eight bits.

`Word.lane` is the number in a lane of a word. As long as no lane overflows, arithmetic on words is
arithmetic in every lane: `lane_add`, `lane_sub` and `lane_mul_ones`, whose lanes are the sums of
the lanes so far. The first two compare whole words through `joined`, the number that some lanes
make up. Bits under a mask that keeps them inside their lane are shifted lane by lane
(`lane_shiftRight_and`). What the counting of bits does to one byte is checked for all of them
(`count_byte`), and `byteCounts?_spec` puts the lanes together.
-/
import Lexicon.Bits.Broadword
import Lexicon.Proofs.Bits.Words
import Mathlib.Algebra.BigOperators.Ring.Finset
import Mathlib.Data.Nat.ModEq
import Mathlib.Tactic.Ring

namespace Lexicon

/-! ## Numbers by their lanes -/

/-- The number with the given lanes of eight bits, so many of them, the first one lowest. -/
def joined (lane : Nat → Nat) (n : Nat) : Nat :=
  ∑ j ∈ Finset.range n, lane j * 256 ^ j

section

variable {lane : Nat → Nat} {n : Nat}

theorem joined_succ (lane : Nat → Nat) (n : Nat) :
    joined lane (n + 1) = lane 0 + 256 * joined (fun j => lane (j + 1)) n := by
  rw [joined, Finset.sum_range_succ', joined, Finset.mul_sum, Nat.pow_zero, Nat.mul_one,
    Nat.add_comm]
  congr 1
  apply Finset.sum_congr rfl
  intro j _
  ring

theorem joined_lt (h : ∀ j < n, lane j < 256) : joined lane n < 256 ^ n := by
  induction n generalizing lane with
  | zero => exact Nat.one_pos
  | succ n ih =>
    have hrest := ih fun j hj => h (j + 1) (Nat.succ_lt_succ hj)
    have hlow := h 0 (Nat.succ_pos n)
    rw [joined_succ, Nat.pow_succ']
    omega

/-- The lanes of a number are found again. -/
theorem joined_div_mod (h : ∀ j < n, lane j < 256) {j : Nat} (hj : j < n) :
    joined lane n / 256 ^ j % 256 = lane j := by
  induction n generalizing lane j with
  | zero => exact absurd hj (Nat.not_lt_zero j)
  | succ n ih =>
    have hlow : lane 0 < 256 := h 0 (Nat.succ_pos n)
    rw [joined_succ]
    cases j with
    | zero => omega
    | succ j =>
      rw [Nat.pow_succ', ← Nat.div_div_eq_div_mul, Nat.add_mul_div_left _ _ (by decide),
        Nat.div_eq_of_lt hlow, Nat.zero_add]
      exact ih (fun i hi => h (i + 1) (Nat.succ_lt_succ hi)) (Nat.lt_of_succ_lt_succ hj)

/-- A number below `256 ^ n` is made up of `n` lanes. -/
theorem joined_of_lt {x : Nat} (h : x < 256 ^ n) : joined (fun j => x / 256 ^ j % 256) n = x := by
  induction n generalizing x with
  | zero =>
    rw [Nat.lt_one_iff.mp h]
    rfl
  | succ n ih =>
    have hnext : ∀ j : Nat, x / 256 ^ (j + 1) = x / 256 / 256 ^ j := by
      intro j
      rw [Nat.pow_succ', Nat.div_div_eq_div_mul]
    have hrest := ih (x := x / 256) (by rw [Nat.pow_succ] at h; omega)
    simp only [joined_succ, hnext, hrest, Nat.pow_zero, Nat.div_one]
    omega

/-- Multiplied by ones in all lanes, a number gets the sums of its lanes so far; what is carried out
of the lanes does not count. -/
theorem joined_mul_ones {total : Nat → Nat} (h : ∀ j < n, total (j + 1) = total j + lane j) :
    (joined lane n + total 0) * joined (fun _ => 1) n
      ≡ joined (fun j => total (j + 1)) n [MOD 256 ^ n] := by
  induction n generalizing lane total with
  | zero => exact Nat.modEq_one
  | succ n ih =>
    have hrest := @ih (fun j => lane (j + 1)) (fun j => total (j + 1))
      fun j hj => h (j + 1) (Nat.succ_lt_succ hj)
    have hfirst : total 1 = total 0 + lane 0 := h 0 (Nat.succ_pos n)
    have htop : joined (fun _ => 1) (n + 1) = joined (fun _ => 1) n + 256 ^ n := by
      rw [joined, Finset.sum_range_succ, joined, Nat.one_mul]
    -- what the lanes above the first one get from the topmost one is carried out
    have hproduct : (joined lane (n + 1) + total 0) * joined (fun _ => 1) (n + 1)
        = total 1 + 256 * ((joined (fun j => lane (j + 1)) n + total 1) * joined (fun _ => 1) n)
          + joined (fun j => lane (j + 1)) n * 256 ^ (n + 1) := by
      calc (joined lane (n + 1) + total 0) * joined (fun _ => 1) (n + 1)
          = total 1 * joined (fun _ => 1) (n + 1)
            + 256 * joined (fun j => lane (j + 1)) n * joined (fun _ => 1) (n + 1) := by
            rw [joined_succ lane, hfirst]
            ring
        _ = total 1 * (1 + 256 * joined (fun _ => 1) n)
            + 256 * joined (fun j => lane (j + 1)) n * (joined (fun _ => 1) n + 256 ^ n) := by
            rw [← htop, joined_succ (fun _ => 1)]
        _ = total 1 + 256 * ((joined (fun j => lane (j + 1)) n + total 1) * joined (fun _ => 1) n)
            + joined (fun j => lane (j + 1)) n * 256 ^ (n + 1) := by
            ring
    have hshifted := (hrest.mul_left' 256).add_left (total 1)
    rw [← Nat.pow_succ'] at hshifted
    rw [hproduct, joined_succ]
    exact (Nat.add_mul_modulus_modEq_iff.mpr (Nat.ModEq.refl _)).trans hshifted

end

namespace Word

/-! ## The lanes of a word -/

/-- The number in lane `j` of a word, lane 0 the lowest. -/
def lane (w : Word) (j : Nat) : Nat :=
  w.toNat / 256 ^ j % 256

theorem lane_lt (w : Word) (j : Nat) : lane w j < 256 :=
  Nat.mod_lt _ (by decide)

/-- A word has eight lanes. -/
theorem lane_of_le (w : Word) {j : Nat} (hj : 8 ≤ j) : lane w j = 0 := by
  have hlt : w.toNat < 256 ^ j :=
    Nat.lt_of_lt_of_le w.toNat_lt (Nat.pow_le_pow_right (show 0 < 256 by decide) hj)
  rw [lane, Nat.div_eq_of_lt hlt]

theorem toNat_eq_joined (w : Word) : w.toNat = joined (lane w) 8 :=
  (joined_of_lt w.toNat_lt).symm

theorem lane_of_toNat_eq {w : Word} {f : Nat → Nat} (h : w.toNat = joined f 8)
    (hf : ∀ j < 8, f j < 256) {j : Nat} (hj : j < 8) : lane w j = f j := by
  rw [lane, h, joined_div_mod hf hj]

variable {a b : Word}

theorem lane_and (a b : Word) (j : Nat) : lane (a &&& b) j = lane a j &&& lane b j := by
  have hpow : 256 ^ j = 2 ^ (8 * j) := by rw [Nat.pow_mul]
  rw [lane, lane, lane, UInt64.toNat_and, hpow, Nat.and_div_two_pow]
  exact Nat.and_mod_two_pow (n := 8)

/-- Lanes that do not overflow are added one by one. -/
theorem lane_add (h : ∀ j < 8, lane a j + lane b j < 256) :
    plus? a b = some (a + b) ∧ ∀ j < 8, lane (a + b) j = lane a j + lane b j := by
  have hsum : a.toNat + b.toNat = joined (fun j => lane a j + lane b j) 8 := by
    rw [toNat_eq_joined a, toNat_eq_joined b, joined, joined, joined, ← Finset.sum_add_distrib]
    apply Finset.sum_congr rfl
    intro j _
    rw [Nat.add_mul]
  have hlt : a.toNat + b.toNat < UInt64.size := hsum ▸ joined_lt h
  refine ⟨if_pos hlt, fun j hj => lane_of_toNat_eq ?_ h hj⟩
  rw [UInt64.toNat_add, Nat.mod_eq_of_lt hlt, hsum]

/-- Lanes that do not fall below zero are subtracted one by one. -/
theorem lane_sub (h : ∀ j < 8, lane b j ≤ lane a j) :
    minus? a b = some (a - b) ∧ ∀ j < 8, lane (a - b) j = lane a j - lane b j := by
  have hsum : joined (fun j => lane a j - lane b j) 8 + b.toNat = a.toNat := by
    rw [toNat_eq_joined a, toNat_eq_joined b, joined, joined, joined, ← Finset.sum_add_distrib]
    apply Finset.sum_congr rfl
    intro j hj
    rw [← Nat.add_mul, Nat.sub_add_cancel (h j (Finset.mem_range.mp hj))]
  have hle : b ≤ a := by
    rw [UInt64.le_iff_toNat_le, ← hsum]
    exact Nat.le_add_left _ _
  have hlt : ∀ j < 8, lane a j - lane b j < 256 :=
    fun j _ => Nat.lt_of_le_of_lt (Nat.sub_le _ _) (lane_lt a j)
  refine ⟨if_pos hle, fun j hj => lane_of_toNat_eq ?_ hlt hj⟩
  rw [UInt64.toNat_sub_of_le a b hle, ← hsum, Nat.add_sub_cancel]

/-- Multiplied by ones in all lanes, a word has the sums of its lanes so far. -/
theorem lane_mul_ones (total : Nat → Nat) (hzero : total 0 = 0)
    (h : ∀ j < 8, total (j + 1) = total j + lane a j) (hlt : ∀ j < 8, total (j + 1) < 256) {j : Nat}
    (hj : j < 8) : lane (a * laneOnes) j = total (j + 1) := by
  have hones : laneOnes.toNat = joined (fun _ => 1) 8 := by decide
  have hproduct := joined_mul_ones h
  refine lane_of_toNat_eq ?_ hlt hj
  rw [hzero, Nat.add_zero, ← toNat_eq_joined, ← hones, Nat.ModEq, Nat.mod_eq_of_lt (joined_lt hlt)]
    at hproduct
  rw [UInt64.toNat_mul]
  exact hproduct

/-! ## Shifted lanes -/

/-- Bits under a mask that keeps what comes from the same lane are shifted lane by lane. -/
theorem lane_shiftRight_and (a : Word) {s mask : Word} {j : Nat} (hs : s.toNat < 8)
    (hmask : lane mask j < 2 ^ (8 - s.toNat)) :
    lane ((a >>> s) &&& mask) j = (lane a j >>> s.toNat) &&& lane mask j := by
  have hshift : lane (a >>> s) j = ((a.toNat / 256 ^ j) >>> s.toNat) % 2 ^ 8 := by
    rw [lane, UInt64.toNat_shiftRight, Nat.mod_eq_of_lt (show s.toNat < 64 by omega),
      Nat.shiftRight_eq_div_pow, Nat.shiftRight_eq_div_pow, Nat.div_right_comm]
    rfl
  have hlane : lane a j = a.toNat / 256 ^ j % 2 ^ 8 := rfl
  rw [lane_and, hshift, hlane]
  generalize a.toNat / 256 ^ j = x
  apply Nat.eq_of_testBit_eq
  intro i
  rw [Nat.testBit_and, Nat.testBit_and, Nat.testBit_mod_two_pow, Nat.testBit_shiftRight,
    Nat.testBit_shiftRight, Nat.testBit_mod_two_pow]
  by_cases hi : i < 8 - s.toNat
  · rw [decide_eq_true (show i < 8 by omega), decide_eq_true (show s.toNat + i < 8 by omega)]
  · have hzero : (lane mask j).testBit i = false :=
      Nat.testBit_lt_two_pow
        (Nat.lt_of_lt_of_le hmask (Nat.pow_le_pow_right (by decide) (Nat.le_of_not_lt hi)))
    rw [hzero, Bool.and_false, Bool.and_false]

/-- Shifted by half a lane, a lane gets its own upper half and the lower half of the next one. -/
theorem lane_shiftRight_four (a : Word) (j : Nat) :
    lane (a >>> 4) j = lane a j / 16 + 16 * (lane a (j + 1) % 16) := by
  have hshift : (a >>> 4).toNat = a.toNat / 16 := by
    rw [UInt64.toNat_shiftRight, Nat.shiftRight_eq_div_pow]
    rfl
  have hnext : a.toNat / 256 ^ (j + 1) = a.toNat / 256 ^ j / 256 := by
    rw [Nat.pow_succ, Nat.div_div_eq_div_mul]
  rw [lane, hshift, Nat.div_right_comm, lane, lane, hnext]
  omega

/-- Shifted by a whole lane, every lane is the one before it. -/
theorem lane_shiftLeft_eight {f : Nat → Nat} (hzero : f 0 = 0)
    (h : ∀ j < 8, lane a j = f (j + 1)) (hlt : ∀ j < 8, f j < 256) {j : Nat} (hj : j < 8) :
    lane (a <<< 8) j = f j := by
  have hshift : (a <<< 8).toNat = 256 * a.toNat % 256 ^ 8 := by
    rw [UInt64.toNat_shiftLeft, Nat.shiftLeft_eq, Nat.mul_comm]
    rfl
  have hlanes : a.toNat = joined (fun j => f (j + 1)) 8 := by
    rw [toNat_eq_joined a]
    exact Finset.sum_congr rfl fun j hj => by rw [h j (Finset.mem_range.mp hj)]
  have htop : 256 * a.toNat = joined f 8 + f 8 * 256 ^ 8 := by
    rw [hlanes, ← Nat.zero_add (256 * _), ← hzero, ← joined_succ, joined, Finset.sum_range_succ,
      joined]
  refine lane_of_toNat_eq ?_ hlt hj
  rw [hshift, htop, Nat.add_mul_mod_self_right, Nat.mod_eq_of_lt (joined_lt hlt)]

/-! ## Bits of lanes -/

theorem testBit_lane (w : Word) (j p : Nat) :
    (lane w j).testBit p = (decide (p < 8) && w.toNat.testBit (8 * j + p)) := by
  have hpow : 256 ^ j = 2 ^ (8 * j) := by rw [Nat.pow_mul]
  rw [lane, hpow, show 256 = 2 ^ 8 from rfl, Nat.testBit_mod_two_pow, Nat.testBit_div_two_pow,
    Nat.add_comm]

/-- A lane as a word of its own has the bits of the lane. -/
theorem bit_toUInt64_lane (w : Word) {j p : Nat} (hj : j < 8) (hp : p < 8) :
    bit (lane w j).toUInt64 p = w.bit (8 * j + p) := by
  have hlt : lane w j < 2 ^ 64 := Nat.lt_trans (lane_lt w j) (by decide)
  rw [bit_eq_testBit _ (by omega), bit_eq_testBit _ (by omega), toNat_toUInt64 hlt, testBit_lane,
    decide_eq_true hp, Bool.true_and]

theorem onesFrom_congr {w w' : Word} {i i' n : Nat} (h : ∀ d < n, w.bit (i + d) = w'.bit (i' + d)) :
    w.onesFrom i n = w'.onesFrom i' n := by
  induction n generalizing i i' with
  | zero => rfl
  | succ n ih =>
    rw [onesFrom, onesFrom, ih fun d hd => ?_]
    · rw [show w.bit i = w'.bit i' from h 0 (Nat.succ_pos n)]
    · have hd' := h (d + 1) (Nat.succ_lt_succ hd)
      rwa [← Nat.add_assoc, ← Nat.add_assoc, Nat.add_right_comm, Nat.add_right_comm i'] at hd'

theorem onesFrom_toUInt64_lane (w : Word) {j n : Nat} (hj : j < 8) (hn : n ≤ 8) :
    onesFrom (lane w j).toUInt64 0 n = w.onesFrom (8 * j) n := by
  apply onesFrom_congr
  intro d hd
  rw [Nat.zero_add, bit_toUInt64_lane w hj (by omega)]

/-- The byte at a multiple of eight is a lane. -/
theorem exists_byteFrom? (w : Word) {j : Nat} (hj : j < 8) :
    ∃ byte, w.byteFrom? (8 * j) = some byte ∧ byte.toNat = lane w j := by
  have hshift : 8 * j < 64 := by omega
  have hpow : 256 ^ j = 2 ^ (8 * j) := by rw [Nat.pow_mul]
  refine ⟨_, if_pos hshift, ?_⟩
  rw [UInt64.toNat_and, UInt64.toNat_shiftRight, toNat_shift hshift, Nat.shiftRight_eq_div_pow,
    lane, hpow]
  exact Nat.and_two_pow_sub_one_eq_mod _ 8

/-! ## The counts of the bytes -/

/-- What becomes of a byte when the set bits of its pairs are counted. -/
def pairsOf (byte : Nat) : Nat :=
  byte - (byte >>> 1 &&& 0x55)

/-- What becomes of a byte when the set bits of its fours are counted. -/
def foursOf (byte : Nat) : Nat :=
  (pairsOf byte &&& 0x33) + (pairsOf byte >>> 2 &&& 0x33)

/-- The counts of a byte stay inside the byte, and the last one is that of all its set bits. -/
theorem count_byte : ∀ byte < 256, byte >>> 1 &&& 0x55 ≤ byte ∧ foursOf byte ≤ 0x44
    ∧ foursOf byte % 16 ≤ 4
    ∧ (foursOf byte + foursOf byte / 16) % 16 = onesFrom byte.toUInt64 0 8 := by
  decide +kernel

theorem lane_mask₅ : ∀ j < 8, lane 0x5555555555555555 j = 0x55 := by decide

theorem lane_mask₃ : ∀ j < 8, lane 0x3333333333333333 j = 0x33 := by decide

theorem lane_mask₀ : ∀ j < 8, lane 0x0F0F0F0F0F0F0F0F j = 0x0F := by decide

variable {w pairs fours : Word}

theorem exists_pairs (w : Word) :
    ∃ pairs, minus? w ((w >>> 1) &&& 0x5555555555555555) = some pairs
      ∧ ∀ j < 8, lane pairs j = pairsOf (lane w j) := by
  have hsecond : ∀ j < 8, lane ((w >>> 1) &&& 0x5555555555555555) j = lane w j >>> 1 &&& 0x55 := by
    intro j hj
    rw [lane_shiftRight_and w (by decide) (by rw [lane_mask₅ j hj]; decide), lane_mask₅ j hj]
    rfl
  obtain ⟨hminus, hlane⟩ := lane_sub (a := w) fun j hj => by
    rw [hsecond j hj]
    exact (count_byte _ (lane_lt w j)).1
  refine ⟨_, hminus, fun j hj => ?_⟩
  rw [hlane j hj, hsecond j hj, pairsOf]

theorem exists_fours (h : ∀ j < 8, lane pairs j = pairsOf (lane w j)) :
    ∃ fours, plus? (pairs &&& 0x3333333333333333) ((pairs >>> 2) &&& 0x3333333333333333)
        = some fours
      ∧ ∀ j < 8, lane fours j = foursOf (lane w j) := by
  have hsum : ∀ j < 8, lane (pairs &&& 0x3333333333333333) j
      + lane ((pairs >>> 2) &&& 0x3333333333333333) j = foursOf (lane w j) := by
    intro j hj
    rw [lane_and, lane_shiftRight_and pairs (by decide) (by rw [lane_mask₃ j hj]; decide), h j hj,
      lane_mask₃ j hj]
    rfl
  obtain ⟨hplus, hlane⟩ := lane_add (a := pairs &&& 0x3333333333333333) fun j hj => by
    have hcount := (count_byte _ (lane_lt w j)).2.1
    rw [hsum j hj]
    omega
  exact ⟨_, hplus, fun j hj => (hlane j hj).trans (hsum j hj)⟩

/-- The upper half of a lane is added to the lower one; what comes from the next lane is above the
mask. -/
theorem exists_eights (h : ∀ j < 8, lane fours j = foursOf (lane w j)) :
    ∃ eights, plus? fours (fours >>> 4) = some eights
      ∧ ∀ j < 8, lane (eights &&& 0x0F0F0F0F0F0F0F0F) j = w.onesFrom (8 * j) 8 := by
  have hhalf : ∀ j : Nat, lane fours j % 16 ≤ 4 := by
    intro j
    by_cases hj : j < 8
    · rw [h j hj]
      exact (count_byte _ (lane_lt w j)).2.2.1
    · rw [lane_of_le fours (Nat.le_of_not_lt hj)]
      decide
  obtain ⟨hplus, hlane⟩ := lane_add (a := fours) (b := fours >>> 4) fun j hj => by
    have hcount := (count_byte _ (lane_lt w j)).2.1
    have hnext := hhalf (j + 1)
    rw [lane_shiftRight_four, h j hj]
    omega
  refine ⟨_, hplus, fun j hj => ?_⟩
  have hcount := (count_byte _ (lane_lt w j)).2.2.2
  rw [onesFrom_toUInt64_lane w hj (Nat.le_refl 8)] at hcount
  rw [lane_and, hlane j hj, lane_shiftRight_four, lane_mask₀ j hj, h j hj, ← hcount,
    Nat.and_two_pow_sub_one_eq_mod _ 4]
  omega

/-- The counts of the bytes are taken without leaving any range, and lane `j` has that of byte
`j`. -/
theorem byteCounts?_spec (w : Word) :
    ∃ counts, w.byteCounts? = some counts ∧ ∀ j < 8, lane counts j = w.onesFrom (8 * j) 8 := by
  obtain ⟨pairs, hminus, hpairs⟩ := exists_pairs w
  obtain ⟨fours, hplus, hfours⟩ := exists_fours hpairs
  obtain ⟨eights, hplus', heights⟩ := exists_eights hfours
  refine ⟨eights &&& 0x0F0F0F0F0F0F0F0F, ?_, heights⟩
  simp only [byteCounts?, hminus, hplus, hplus', Option.bind_eq_bind, Option.bind_some]

end Word

end Lexicon
