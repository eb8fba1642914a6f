/-
Lexicon.Proofs.Bits.Records — the seven packed counts of a rank record are
independent variables.

A field is a window of a 32-bit word. `testBit_write` says bit by bit what writing
a field does, and from it reading gives back what was written (`toNat_read_write`)
and leaves alone every window apart from it (`read_write_of_apart`). For the
record this becomes `rel_setRel_same` and `rel_setRel_of_ne`, and `rel_ofBlock`
reads the record of a block.
-/
import Lexicon.Bits.RankRecord
import Lexicon.Proofs.Bits.Words

namespace Lexicon.RankRecord

/-! ## One field of a word -/

namespace Field

/-- The field lies inside a 32-bit word and does not fill it. -/
structure Fits (f : Field) : Prop where
  shift_lt : f.shift.toNat < 32
  width_lt : f.width.toNat < 32
  end_le : f.shift.toNat + f.width.toNat ≤ 32

/-- Two fields have no bit in common. -/
def Apart (f g : Field) : Prop :=
  f.shift.toNat + f.width.toNat ≤ g.shift.toNat ∨ g.shift.toNat + g.width.toNat ≤ f.shift.toNat

instance (f g : Field) : Decidable (f.Apart g) :=
  inferInstanceAs (Decidable (_ ∨ _))

variable {f g : Field}

theorem toNat_lowMask (h : f.Fits) : f.lowMask.toNat = 2 ^ f.width.toNat - 1 := by
  have hpow : 2 ^ f.width.toNat < 2 ^ 32 := Nat.pow_lt_pow_right (by decide) h.width_lt
  have hshift : (1 <<< f.width : UInt32).toNat = 2 ^ f.width.toNat := by
    rw [UInt32.toNat_shiftLeft, Nat.mod_eq_of_lt h.width_lt, Nat.shiftLeft_eq, UInt32.toNat_one,
      Nat.one_mul, Nat.mod_eq_of_lt hpow]
  rw [lowMask, UInt32.toNat_sub_of_le, hshift, UInt32.toNat_one]
  rw [UInt32.le_iff_toNat_le, hshift]
  exact Nat.two_pow_pos _

theorem testBit_read (h : f.Fits) (word : UInt32) (i : Nat) :
    (f.read word).toNat.testBit i
      = (word.toNat.testBit (f.shift.toNat + i) && decide (i < f.width.toNat)) := by
  rw [read, UInt32.toNat_and, Nat.testBit_and, toNat_lowMask h, Nat.testBit_two_pow_sub_one,
    UInt32.toNat_shiftRight, Nat.mod_eq_of_lt h.shift_lt, Nat.testBit_shiftRight]

/-- The bits that a field takes up. -/
theorem testBit_mask (h : f.Fits) {i : Nat} (hi : i < 32) :
    (f.lowMask <<< f.shift).toNat.testBit i
      = decide (f.shift.toNat ≤ i ∧ i < f.shift.toNat + f.width.toNat) := by
  rw [UInt32.toNat_shiftLeft, Nat.testBit_mod_two_pow, Nat.testBit_shiftLeft,
    Nat.mod_eq_of_lt h.shift_lt, toNat_lowMask h, Nat.testBit_two_pow_sub_one, Bool.eq_iff_iff]
  simp only [Bool.and_eq_true, decide_eq_true_eq]
  omega

/-- Inside the field the written word has the bits of the value, elsewhere its own. -/
theorem testBit_write (h : f.Fits) (word value : UInt32) {i : Nat} (hi : i < 32) :
    (f.write word value).toNat.testBit i
      = if f.shift.toNat ≤ i ∧ i < f.shift.toNat + f.width.toNat then
          value.toNat.testBit (i - f.shift.toNat)
        else word.toNat.testBit i := by
  have hvalue : (value <<< f.shift).toNat.testBit i
      = (decide (f.shift.toNat ≤ i) && value.toNat.testBit (i - f.shift.toNat)) := by
    rw [UInt32.toNat_shiftLeft, Nat.testBit_mod_two_pow, Nat.testBit_shiftLeft,
      Nat.mod_eq_of_lt h.shift_lt]
    simp [hi]
  have hrest : (~~~(f.lowMask <<< f.shift)).toNat.testBit i
      = !(f.lowMask <<< f.shift).toNat.testBit i := by
    rw [← UInt32.toNat_toBitVec, UInt32.toBitVec_not]
    show (~~~(f.lowMask <<< f.shift).toBitVec).getLsbD i = _
    rw [BitVec.getLsbD_not]
    simp only [hi, decide_true, Bool.true_and]
    rfl
  rw [write, UInt32.toNat_or, UInt32.toNat_and, UInt32.toNat_and, Nat.testBit_or,
    Nat.testBit_and, Nat.testBit_and, hrest, hvalue, testBit_mask h hi]
  split
  · rename_i hin
    simp [hin]
  · rename_i hout
    simp [hout]

/-- A value that the field has room for is read back. -/
theorem toNat_read_write (h : f.Fits) (word : UInt32) {value : UInt32}
    (hvalue : value.toNat < 2 ^ f.width.toNat) :
    (f.read (f.write word value)).toNat = value.toNat := by
  apply Nat.eq_of_testBit_eq
  intro i
  rw [testBit_read h]
  by_cases hi : i < f.width.toNat
  · have hend := h.end_le
    rw [testBit_write h _ _ (by omega), if_pos (by omega), Nat.add_sub_cancel_left]
    simp [hi]
  · have hzero : value.toNat.testBit i = false :=
      Nat.testBit_lt_two_pow
        (Nat.lt_of_lt_of_le hvalue (Nat.pow_le_pow_right (by decide) (by omega)))
    simp [hi, hzero]

/-- Writing one field leaves the fields apart from it as they were. -/
theorem read_write_of_apart (hf : f.Fits) (hg : g.Fits) (hapart : f.Apart g)
    (word value : UInt32) : g.read (f.write word value) = g.read word := by
  rw [← UInt32.toNat_inj]
  apply Nat.eq_of_testBit_eq
  intro i
  rw [testBit_read hg, testBit_read hg]
  by_cases hi : i < g.width.toNat
  · have hend := hg.end_le
    have hout : ¬(f.shift.toNat ≤ g.shift.toNat + i
        ∧ g.shift.toNat + i < f.shift.toNat + f.width.toNat) := by
      unfold Apart at hapart
      omega
    rw [testBit_write hf _ _ (by omega), if_neg hout]
  · simp [hi]

end Field

/-! ## The counts of a record -/

theorem fits_field (j : Nat) : (field j).Fits := by
  unfold field
  split <;> exact ⟨by decide, by decide, by decide⟩

/-- The counts of one word of a record have no bit in common. -/
theorem apart_field : ∀ {j k : Nat}, 1 ≤ j → j ≤ 7 → 1 ≤ k → k ≤ 7 → j ≠ k →
    (field j).inHigh = (field k).inHigh → (field j).Apart (field k) := by
  have hall : ∀ j ∈ List.range' 1 7, ∀ k ∈ List.range' 1 7, j ≠ k →
      (field j).inHigh = (field k).inHigh → (field j).Apart (field k) := by
    decide
  intro j k hj hj' hk hk'
  exact hall j (List.mem_range'_1.mpr ⟨hj, by omega⟩) k (List.mem_range'_1.mpr ⟨hk, by omega⟩)

/-- The count before word `j`, at most `64 * j`, fits its field. -/
theorem lt_two_pow_width : ∀ {j : Nat}, 1 ≤ j → j ≤ 7 → 64 * j < 2 ^ (field j).width.toNat := by
  have hall : ∀ j ∈ List.range' 1 7, 64 * j < 2 ^ (field j).width.toNat := by
    decide
  intro j hj hj'
  exact hall j (List.mem_range'_1.mpr ⟨hj, by omega⟩)

/-- The count of a word other than the first, by the word of the record that holds it. -/
theorem rel_of_pos (r : RankRecord) {j : Nat} (hj : 1 ≤ j) :
    r.rel j = ((field j).read (if (field j).inHigh then r.high else r.low)).toNat := by
  rw [rel, if_neg (by omega)]

theorem toNat_toUInt32_of_le {v j : Nat} (hj' : j ≤ 7) (hv : v ≤ 64 * j) :
    v.toUInt32.toNat = v :=
  toNat_toUInt32 (by omega)

/-- A count is what was written into it. -/
theorem rel_setRel_same (r : RankRecord) {j v : Nat} (hj : 1 ≤ j) (hj' : j ≤ 7)
    (hv : v ≤ 64 * j) : (r.setRel j v).rel j = v := by
  have hvalue := toNat_toUInt32_of_le hj' hv
  have hroom : v.toUInt32.toNat < 2 ^ (field j).width.toNat := by
    rw [hvalue]
    exact Nat.lt_of_le_of_lt hv (lt_two_pow_width hj hj')
  rw [rel_of_pos _ hj, setRel]
  by_cases hhigh : (field j).inHigh = true
  · simp only [hhigh, if_true]
    rw [Field.toNat_read_write (fits_field j) r.high hroom, hvalue]
  · simp only [hhigh, if_false, Bool.false_eq_true]
    rw [Field.toNat_read_write (fits_field j) r.low hroom, hvalue]

/-- Writing one count leaves the others as they were. -/
theorem rel_setRel_of_ne (r : RankRecord) {j k : Nat} (v : Nat) (hj : 1 ≤ j) (hj' : j ≤ 7)
    (hk' : k ≤ 7) (hne : j ≠ k) : (r.setRel j v).rel k = r.rel k := by
  by_cases hk : k = 0
  · rw [hk]
    rfl
  · have hapart := apart_field hj hj' (show 1 ≤ k by omega) hk' hne
    rw [rel_of_pos _ (by omega), rel_of_pos r (by omega), setRel]
    by_cases hjhigh : (field j).inHigh = true
    · by_cases hkhigh : (field k).inHigh = true
      · simp only [hjhigh, hkhigh, if_true]
        rw [Field.read_write_of_apart (fits_field j) (fits_field k) (hapart (by simp [hjhigh, hkhigh]))]
      · simp [hjhigh, hkhigh]
    · by_cases hkhigh : (field k).inHigh = true
      · simp [hjhigh, hkhigh]
      · simp only [hjhigh, hkhigh, if_false, Bool.false_eq_true]
        rw [Field.read_write_of_apart (fits_field j) (fits_field k) (hapart (by simp_all))]

@[simp] theorem abs_setRel (r : RankRecord) (j v : Nat) : (r.setRel j v).abs = r.abs := by
  simp only [setRel]
  split
  · rfl
  · rfl

theorem abs_setAbs (r : RankRecord) {v : Nat} (hv : v < 2 ^ 32) : (r.setAbs v).abs = v :=
  toNat_toUInt32 hv

/-! ## The record of a block -/

theorem onesIn_append (front back : List Word) :
    onesIn (front ++ back) = onesIn front + onesIn back := by
  induction front with
  | nil => simp [onesIn, sumOf]
  | cons w front ih =>
      simp only [onesIn, sumOf, List.map_append, List.map_cons, List.foldr_append,
        List.cons_append, List.foldr_cons] at ih ⊢
      omega

theorem onesIn_cons (w : Word) (words : List Word) :
    onesIn (w :: words) = w.ones + onesIn words := rfl

theorem onesFrom_le (w : Word) (n i : Nat) : w.onesFrom i n ≤ n := by
  induction n generalizing i with
  | zero => exact Nat.le_refl 0
  | succ n ih =>
    have hrest := ih (i + 1)
    have hbit := Bool.toNat_le (w.bit i)
    rw [Word.onesFrom]
    omega

theorem onesIn_le (words : List Word) : onesIn words ≤ 64 * words.length := by
  induction words with
  | nil => exact Nat.le_refl 0
  | cons w words ih =>
    have hones : w.ones ≤ 64 := onesFrom_le w 64 0
    rw [onesIn_cons, List.length_cons]
    omega

theorem onesIn_take_le (words : List Word) (j : Nat) : onesIn (words.take j) ≤ 64 * j := by
  have h := onesIn_le (words.take j)
  have hlength := List.length_take_le j words
  omega

/-- Writing the counts before some words, no word twice, makes each of them readable. -/
theorem rel_foldl_setRel (words : List Word) (js : List Nat) (r : RankRecord) (k : Nat)
    (hk : k ≤ 7) (hjs : ∀ j ∈ js, 1 ≤ j ∧ j ≤ 7) :
    (js.foldl (fun r j => r.setRel j (onesIn (words.take j))) r).rel k
      = if k ∈ js then onesIn (words.take k) else r.rel k := by
  induction js generalizing r with
  | nil => simp
  | cons j js ih =>
    obtain ⟨hj, hj'⟩ := hjs j (by simp)
    rw [List.foldl_cons, ih _ fun i hi => hjs i (by simp [hi])]
    by_cases hkj : j = k
    · subst hkj
      rw [rel_setRel_same r hj hj' (onesIn_take_le words j)]
      simp
    · rw [rel_setRel_of_ne r _ hj hj' hk hkj]
      simp [Ne.symm hkj]

/-- The record of a block counts the ones of the block before each of its words. -/
theorem rel_ofBlock (before : Nat) (words : List Word) {k : Nat} (hk : k ≤ 7) :
    (ofBlock before words).rel k = onesIn (words.take k) := by
  rw [ofBlock, rel_foldl_setRel words [1, 2, 3, 4, 5, 6, 7] _ k hk (by decide)]
  split
  · rfl
  · rename_i hmem
    have hzero : k = 0 := by
      simp only [List.mem_cons, List.not_mem_nil] at hmem
      omega
    rw [hzero]
    rfl

theorem abs_foldl_setRel (words : List Word) (js : List Nat) (r : RankRecord) :
    (js.foldl (fun r j => r.setRel j (onesIn (words.take j))) r).abs = r.abs := by
  induction js generalizing r with
  | nil => rfl
  | cons j js ih => rw [List.foldl_cons, ih, abs_setRel]

/-- The record of a block holds the ones before it. -/
theorem abs_ofBlock {before : Nat} (words : List Word) (h : before < 2 ^ 32) :
    (ofBlock before words).abs = before := by
  rw [ofBlock, abs_foldl_setRel, abs_setAbs _ h]

end Lexicon.RankRecord
