/-
Lexicon.Proofs.Weights — weights that are natural numbers are added without rounding.

A natural number below 2^24 is a weight, and its units are so many times those of one. Sums
of such weights stay exact as long as they fit the 53 bits of a total
(`Total.sum_natural`), and a total below 2^24 is a weight again, `Weight.ofNat`. The total
order of weights is the order of the numbers there (`Weight.key_ofNat_lt_iff`): a longer
number has a greater exponent, of two numbers of one length the greater has the greater
significand.
-/
import Lexicon.Level.Shape
import Lexicon.Proofs.Bits.Packing
import Mathlib.Algebra.Order.BigOperators.Group.List

namespace Lexicon

/-! ## Digits -/

theorem two_pow_le_of_bitLength {n : Nat} (h : n ≠ 0) : 2 ^ (bitLength n - 1) ≤ n := by
  rw [bitLength, if_neg h, Nat.add_sub_cancel]
  exact Nat.log2_self_le h

theorem bitLength_pos {n : Nat} (h : n ≠ 0) : 0 < bitLength n := by
  rw [bitLength, if_neg h]
  exact Nat.succ_pos _

theorem bitLength_eq {n k : Nat} (hle : 2 ^ k ≤ n) (hlt : n < 2 ^ (k + 1)) :
    bitLength n = k + 1 := by
  refine Nat.le_antisymm (bitLength_le hlt) (Nat.lt_of_not_le fun h => ?_)
  have hn := Nat.lt_of_lt_of_le (lt_two_pow_bitLength n) (Nat.pow_le_pow_right (by decide) h)
  exact Nat.not_lt.mpr hle hn

/-- Doubling a number gives it one more digit. -/
theorem bitLength_mul_two_pow {n : Nat} (h : n ≠ 0) (k : Nat) :
    bitLength (n * 2 ^ k) = bitLength n + k := by
  have hpos := bitLength_pos h
  have hlength : bitLength n + k = (bitLength n - 1 + k) + 1 := by omega
  rw [hlength]
  apply bitLength_eq
  · rw [Nat.pow_add]
    exact Nat.mul_le_mul_right _ (two_pow_le_of_bitLength h)
  · rw [← hlength, Nat.pow_add]
    exact Nat.mul_lt_mul_of_pos_right (lt_two_pow_bitLength n) (Nat.two_pow_pos k)

namespace Total

/-- A number whose last digits are zeros keeps its value if only these are dropped. -/
theorem roundTo_of_dvd {digits n : Nat} (h : 2 ^ (bitLength n - digits) ∣ n) :
    roundTo digits n = n := by
  unfold roundTo
  by_cases hlength : bitLength n ≤ digits
  · exact if_pos hlength
  · have hrest : n % (1 <<< (bitLength n - digits)) = 0 := by
      rw [Nat.one_shiftLeft]
      exact Nat.mod_eq_zero_of_dvd h
    have hhalf : 0 < 1 <<< (bitLength n - digits - 1) := by
      rw [Nat.one_shiftLeft]
      exact Nat.two_pow_pos _
    have hdown : ¬(1 <<< (bitLength n - digits - 1) < n % (1 <<< (bitLength n - digits))
        ∨ (n % (1 <<< (bitLength n - digits)) = 1 <<< (bitLength n - digits - 1)
          ∧ (n >>> (bitLength n - digits)) % 2 = 1)) := by
      rw [hrest]
      omega
    simp only [if_neg hlength, if_neg hdown]
    rw [Nat.shiftRight_eq_div_pow, Nat.shiftLeft_eq]
    exact Nat.div_mul_cancel h

theorem roundTo_mul_two_pow {digits n : Nat} (h : n < 2 ^ digits) (k : Nat) :
    roundTo digits (n * 2 ^ k) = n * 2 ^ k := by
  apply roundTo_of_dvd
  by_cases hzero : n = 0
  · rw [hzero, Nat.zero_mul]
    exact Nat.dvd_zero _
  · have hlength := bitLength_le h
    rw [bitLength_mul_two_pow hzero]
    exact Nat.dvd_mul_left_of_dvd (Nat.pow_dvd_pow 2 (by omega)) n

/-- The units of the number one. -/
def oneUnits : Nat :=
  2 ^ 149

end Total

/-! ## Natural weights -/

namespace Weight

/-- The natural number that a weight is, if it is one. -/
def toNat (w : Weight) : Nat :=
  match w.total with
  | .finite false units => units / Total.oneUnits
  | _ => 0

/-- A weight is a natural number; zero is so without a sign only. -/
def Natural (w : Weight) : Prop :=
  w.total = .finite false (w.toNat * Total.oneUnits)

instance (w : Weight) : Decidable w.Natural :=
  inferInstanceAs (Decidable (_ = _))

/-- The weight of a natural number. -/
def ofNat (n : Nat) : Weight :=
  (Total.finite false (n * Total.oneUnits)).weight

end Weight

namespace Total

/-- Totals that are natural numbers are added exactly. -/
theorem add_natural {m n : Nat} (h : m + n < 2 ^ 53) :
    (finite false (m * oneUnits)).add (finite false (n * oneUnits))
      = finite false ((m + n) * oneUnits) := by
  rw [add, if_pos rfl, ← Nat.add_mul, oneUnits, roundTo_mul_two_pow h]

theorem sum_natural : ∀ {weights : List Weight} {start : Nat}, (∀ w ∈ weights, w.Natural) →
    start + (weights.map (·.toNat)).sum < 2 ^ 53 →
    sum (finite false (start * oneUnits)) weights
      = finite false ((start + (weights.map (·.toNat)).sum) * oneUnits)
  | [], start, _, _ => rfl
  | w :: weights, start, hall, hlt => by
      rw [List.map_cons, List.sum_cons, ← Nat.add_assoc] at hlt ⊢
      have hfirst := hall w List.mem_cons_self
      have hrest : sum (finite false ((start + w.toNat) * oneUnits)) weights = _ :=
        sum_natural (fun x hx => hall x (List.mem_cons_of_mem w hx)) hlt
      rw [← hrest, sum, List.foldl_cons, hfirst, add_natural (by omega)]
      rfl

end Total

/-- The weight of a first run is the sum of its weights. -/
theorem firstRunWeight_natural {weights : List Weight} (hall : ∀ w ∈ weights, w.Natural)
    (hlt : (weights.map (·.toNat)).sum < 2 ^ 53) :
    firstRunWeight weights = .ofNat (weights.map (·.toNat)).sum := by
  cases weights with
  | nil => rfl
  | cons w weights =>
    rw [List.map_cons, List.sum_cons] at hlt ⊢
    rw [firstRunWeight, hall w List.mem_cons_self,
      Total.sum_natural (fun x hx => hall x (List.mem_cons_of_mem w hx)) hlt]
    rfl

example : firstRunWeight [⟨0x40000000⟩, .one] = ⟨0x40400000⟩ := by decide

/-- The weight of a later run is the sum of its weights. -/
theorem laterRunWeight_natural {weights : List Weight} (hall : ∀ w ∈ weights, w.Natural)
    (hlt : (weights.map (·.toNat)).sum < 2 ^ 53) :
    laterRunWeight weights = .ofNat (weights.map (·.toNat)).sum := by
  have hzero : Total.zero = .finite false (0 * Total.oneUnits) := by
    rw [Nat.zero_mul]
    rfl
  have hsum := Total.sum_natural hall (by rwa [Nat.zero_add])
  rw [laterRunWeight, hzero, hsum, Nat.zero_add]
  rfl

/-! ## The order of natural weights -/

namespace Weight

/-- The bits of the weight of a natural number. -/
def magnitudeOfNat (n : Nat) : Nat :=
  if n = 0 then 0 else (bitLength n + 125) * 2 ^ 23 + n * 2 ^ (24 - bitLength n)

theorem magnitudeOf_natural {n : Nat} (h : n < 2 ^ 24) :
    Total.magnitudeOf (n * Total.oneUnits) = magnitudeOfNat n := by
  unfold Total.magnitudeOf magnitudeOfNat
  by_cases hzero : n = 0
  · rw [hzero, Nat.zero_mul]
    rfl
  · have hpos := bitLength_pos hzero
    have hlength := bitLength_le h
    have hlarge : ¬n * Total.oneUnits < 0x800000 := by
      have hone : 1 * Total.oneUnits ≤ n * Total.oneUnits :=
        Nat.mul_le_mul_right _ (Nat.pos_of_ne_zero hzero)
      have hunits : 0x800000 ≤ 1 * Total.oneUnits := by decide
      omega
    have hshift : (n * Total.oneUnits) >>> (bitLength n + 149 - 23 - 1)
        = n * 2 ^ (24 - bitLength n) := by
      have hsplit : Total.oneUnits = 2 ^ (24 - bitLength n) * 2 ^ (bitLength n + 149 - 23 - 1) := by
        rw [← Nat.pow_add, Total.oneUnits]
        congr 1
        omega
      rw [Nat.shiftRight_eq_div_pow, hsplit, ← Nat.mul_assoc,
        Nat.mul_div_cancel _ (Nat.two_pow_pos _)]
    have hfull : 2 ^ 23 ≤ n * 2 ^ (24 - bitLength n) := by
      have hmul := Nat.mul_le_mul_right (2 ^ (24 - bitLength n)) (two_pow_le_of_bitLength hzero)
      rw [← Nat.pow_add] at hmul
      have hexponent : bitLength n - 1 + (24 - bitLength n) = 23 := by omega
      rwa [hexponent] at hmul
    have hbits : bitLength (n * Total.oneUnits) = bitLength n + 149 :=
      bitLength_mul_two_pow hzero 149
    rw [if_neg hlarge, if_neg hzero]
    simp only [hbits, hshift]
    omega

theorem magnitudeOfNat_bounds {n : Nat} (hne : n ≠ 0) (h : n < 2 ^ 24) :
    (bitLength n + 126) * 2 ^ 23 ≤ magnitudeOfNat n
      ∧ magnitudeOfNat n < (bitLength n + 127) * 2 ^ 23 := by
  have hpos := bitLength_pos hne
  have hlength := bitLength_le h
  have hlow := Nat.mul_le_mul_right (2 ^ (24 - bitLength n)) (two_pow_le_of_bitLength hne)
  have hhigh := Nat.mul_lt_mul_of_pos_right (lt_two_pow_bitLength n)
    (Nat.two_pow_pos (24 - bitLength n))
  rw [← Nat.pow_add] at hlow hhigh
  have hlow' : bitLength n - 1 + (24 - bitLength n) = 23 := by omega
  have hhigh' : bitLength n + (24 - bitLength n) = 24 := by omega
  rw [hlow'] at hlow
  rw [hhigh'] at hhigh
  rw [magnitudeOfNat, if_neg hne]
  omega

theorem magnitudeOfNat_lt {n : Nat} (h : n < 2 ^ 24) : magnitudeOfNat n < 2 ^ 31 := by
  by_cases hzero : n = 0
  · rw [hzero]
    decide
  · have hbounds := (magnitudeOfNat_bounds hzero h).2
    have hlength := bitLength_le h
    omega

/-- The bits grow with the number. -/
theorem magnitudeOfNat_strictMono {m n : Nat} (hmn : m < n) (hn : n < 2 ^ 24) :
    magnitudeOfNat m < magnitudeOfNat n := by
  have hne : n ≠ 0 := Nat.ne_of_gt (Nat.lt_of_le_of_lt (Nat.zero_le m) hmn)
  obtain ⟨hlow, _⟩ := magnitudeOfNat_bounds hne hn
  by_cases hzero : m = 0
  · rw [hzero]
    exact Nat.lt_of_lt_of_le (Nat.mul_pos (Nat.succ_pos _) (by decide)) hlow
  · obtain ⟨_, hhigh⟩ := magnitudeOfNat_bounds hzero (Nat.lt_trans hmn hn)
    have hlength : bitLength m ≤ bitLength n :=
      bitLength_le (Nat.lt_trans hmn (lt_two_pow_bitLength n))
    rcases Nat.lt_or_eq_of_le hlength with hlt | heq
    · -- a shorter number is below all longer ones by its exponent
      have hexponent : (bitLength m + 127) * 2 ^ 23 ≤ (bitLength n + 126) * 2 ^ 23 :=
        Nat.mul_le_mul_right _ (by omega)
      omega
    · rw [magnitudeOfNat, magnitudeOfNat, if_neg hzero, if_neg hne, heq]
      exact Nat.add_lt_add_left (Nat.mul_lt_mul_of_pos_right hmn (Nat.two_pow_pos _)) _

theorem magnitudeOfNat_lt_iff {m n : Nat} (hm : m < 2 ^ 24) (hn : n < 2 ^ 24) :
    magnitudeOfNat m < magnitudeOfNat n ↔ m < n := by
  refine ⟨fun h => ?_, fun h => magnitudeOfNat_strictMono h hn⟩
  by_contra hle
  rcases Nat.lt_or_eq_of_le (Nat.le_of_not_lt hle) with hlt | heq
  · exact Nat.lt_asymm h (magnitudeOfNat_strictMono hlt hm)
  · rw [heq] at h
    exact Nat.lt_irrefl _ h

theorem toNat_bits_ofNat {n : Nat} (h : n < 2 ^ 24) :
    (ofNat n).bits.toNat = magnitudeOfNat n := by
  have hround : Total.roundTo 24 (n * Total.oneUnits) = n * Total.oneUnits :=
    Total.roundTo_mul_two_pow h 149
  have hsmall : n * Total.oneUnits < 1 <<< 277 := by
    have hmul : n * Total.oneUnits < 2 ^ 24 * Total.oneUnits :=
      Nat.mul_lt_mul_of_pos_right h (Nat.two_pow_pos 149)
    have hunits : 2 ^ 24 * Total.oneUnits ≤ 1 <<< 277 := by decide
    exact Nat.lt_of_lt_of_le hmul hunits
  have hlt := magnitudeOfNat_lt h
  rw [ofNat, Total.weight]
  simp only [hround, if_pos hsmall, magnitudeOf_natural h, Total.signed]
  simp only [Bool.false_eq_true, if_false, UInt32.zero_or, Nat.toUInt32_eq, UInt32.toNat_ofNat']
  omega

theorem negative_ofNat {n : Nat} (h : n < 2 ^ 24) : (ofNat n).negative = false := by
  have hlt := magnitudeOfNat_lt h
  rw [negative, toNat_bits_ofNat h]
  exact decide_eq_false (by omega)

theorem magnitude_ofNat {n : Nat} (h : n < 2 ^ 24) : (ofNat n).magnitude = magnitudeOfNat n := by
  have hlt := magnitudeOfNat_lt h
  rw [magnitude, toNat_bits_ofNat h, Nat.mod_eq_of_lt (by omega)]

theorem key_ofNat {n : Nat} (h : n < 2 ^ 24) : (ofNat n).key = magnitudeOfNat n := by
  rw [key, negative_ofNat h, magnitude_ofNat h]
  rfl

/-- The order of natural weights is that of the numbers. -/
theorem key_ofNat_lt_iff {m n : Nat} (hm : m < 2 ^ 24) (hn : n < 2 ^ 24) :
    (ofNat m).key < (ofNat n).key ↔ m < n := by
  rw [key_ofNat hm, key_ofNat hn, Int.ofNat_lt, magnitudeOfNat_lt_iff hm hn]

/-! ## Comparing natural weights -/

theorem magnitudeOfNat_lt_infinity {n : Nat} (h : n < 2 ^ 24) :
    magnitudeOfNat n < 0x7F800000 := by
  by_cases hzero : n = 0
  · rw [hzero]
    decide
  · have hbounds := (magnitudeOfNat_bounds hzero h).2
    have hlength := bitLength_le h
    omega

theorem isNaN_ofNat {n : Nat} (h : n < 2 ^ 24) : (ofNat n).isNaN = false := by
  rw [isNaN, magnitude_ofNat h]
  exact decide_eq_false (Nat.not_lt.mpr (Nat.le_of_lt (magnitudeOfNat_lt_infinity h)))

theorem level_ofNat {n : Nat} (h : n < 2 ^ 24) : (ofNat n).level = magnitudeOfNat n := by
  rw [level, negative_ofNat h, magnitude_ofNat h]
  rfl

/-- Of natural weights the one of the greater number exceeds the other. -/
theorem exceeds_ofNat_iff {m n : Nat} (hm : m < 2 ^ 24) (hn : n < 2 ^ 24) :
    (ofNat m).exceeds (ofNat n) = true ↔ n < m := by
  simp only [exceeds, isNaN_ofNat hm, isNaN_ofNat hn, level_ofNat hm, level_ofNat hn,
    Bool.not_false, Bool.true_and, decide_eq_true_eq, Int.ofNat_lt, magnitudeOfNat_lt_iff hn hm]

/-- Every natural weight but zero exceeds the least normal one. -/
theorem exceeds_minNormal_iff {n : Nat} (h : n < 2 ^ 24) :
    (ofNat n).exceeds minNormal = true ↔ 0 < n := by
  have hnormal : minNormal.level = 0x800000 := rfl
  simp only [exceeds, isNaN_ofNat h, level_ofNat h, hnormal, show minNormal.isNaN = false from rfl,
    Bool.not_false, Bool.true_and, decide_eq_true_eq]
  by_cases hzero : n = 0
  · subst hzero
    exact iff_of_false (by decide) (by decide)
  · have hbounds := (magnitudeOfNat_bounds hzero h).1
    omega

/-- The units of the bits of a natural weight. -/
theorem unitsOf_magnitudeOfNat {n : Nat} (h : n < 2 ^ 24) :
    unitsOf (magnitudeOfNat n) = n * Total.oneUnits := by
  by_cases hzero : n = 0
  · subst hzero
    rfl
  · have hpos := bitLength_pos hzero
    have hlength := bitLength_le h
    obtain ⟨hlow, hhigh⟩ := magnitudeOfNat_bounds hzero h
    have hexponent : magnitudeOfNat n / 0x800000 = bitLength n + 126 := by omega
    have hfraction : 0x800000 + magnitudeOfNat n % 0x800000 = n * 2 ^ (24 - bitLength n) := by
      have hsplit := Nat.div_add_mod (magnitudeOfNat n) 0x800000
      rw [hexponent] at hsplit
      rw [magnitudeOfNat, if_neg hzero] at hsplit ⊢
      omega
    have hpowers : 24 - bitLength n + (bitLength n + 126 - 1) = 149 := by omega
    rw [unitsOf]
    simp only [hexponent, hfraction]
    rw [if_neg (by omega), Nat.shiftLeft_eq, Nat.mul_assoc, ← Nat.pow_add, hpowers]
    rfl

theorem total_ofNat {n : Nat} (h : n < 2 ^ 24) :
    (ofNat n).total = .finite false (n * Total.oneUnits) := by
  have hfinite : ¬magnitudeOfNat n = 0x7F800000 := Nat.ne_of_lt (magnitudeOfNat_lt_infinity h)
  rw [Weight.total, isNaN_ofNat h, magnitude_ofNat h, if_neg Bool.false_ne_true, if_neg hfinite,
    negative_ofNat h, unitsOf_magnitudeOfNat h]

/-- The weight of a natural number is that number. -/
@[simp] theorem toNat_ofNat {n : Nat} (h : n < 2 ^ 24) : (ofNat n).toNat = n := by
  rw [toNat, total_ofNat h]
  exact Nat.mul_div_cancel n (Nat.two_pow_pos 149)

theorem natural_ofNat {n : Nat} (h : n < 2 ^ 24) : (ofNat n).Natural := by
  rw [Natural, toNat_ofNat h, total_ofNat h]

end Weight

end Lexicon
