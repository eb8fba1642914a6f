/-
Lexicon.Proofs.Bits.Writing — a rank record is eight variables.

A run of writes, each a value for one of the eight counts, leaves in every count what was last
written to it (`RankRecord.lastWritten`). What a write keeps is `RankRecord.Holds`: the counts are
those last written, and the five bits of the second word that lie in no field are clear. The frame
lemmas of `Lexicon.Proofs.Bits.Records` give the counts and `Field.write_lt` the clear bits
(`Holds.write`), and by induction a whole run keeps both (`Holds.records`). As the fields and the
clear bits make up the two words, a record with all counts zero is the default one
(`eq_default_iff`). `counts_independent` is the statement for a run from the default record.
-/
import Lexicon.Bits.Indexing
import Lexicon.Proofs.Bits.Records

namespace Lexicon.RankRecord

/-! ## Writes -/

/-- A count of a record: of the ones before the block, or of those of the block before word `j`. -/
inductive Slot
  | block
  | word (j : Nat)
  deriving DecidableEq, Repr

/-- A value for a count. -/
structure Write where
  slot : Slot
  value : Nat
  deriving DecidableEq, Repr

/-- The count is there, and it can become as large as the value. -/
def Write.Fits : Write → Prop
  | ⟨.block, value⟩ => value < 2 ^ 32
  | ⟨.word j, value⟩ => 1 ≤ j ∧ j ≤ 7 ∧ value ≤ 64 * j

instance : (w : Write) → Decidable w.Fits
  | ⟨.block, value⟩ => inferInstanceAs (Decidable (value < 2 ^ 32))
  | ⟨.word j, value⟩ => inferInstanceAs (Decidable (1 ≤ j ∧ j ≤ 7 ∧ value ≤ 64 * j))

/-- The record with a value written to a count, if it fits. -/
def write? (r : RankRecord) : Write → Option RankRecord
  | ⟨.block, value⟩ => r.setAbs? value
  | ⟨.word j, value⟩ => r.setRel? j value

/-- The record before some writes and after each of them. -/
def records? (r : RankRecord) : List Write → Option (List RankRecord)
  | [] => some [r]
  | w :: writes => do
    let next ← r.write? w
    let later ← next.records? writes
    some (r :: later)

/-- The value last written to a count, zero if there is none. -/
def lastWritten (slot : Slot) (writes : List Write) : Nat :=
  ((writes.reverse.find? fun w => w.slot = slot).map Write.value).getD 0

theorem lastWritten_concat (slot : Slot) (writes : List Write) (w : Write) :
    lastWritten slot (writes ++ [w])
      = if w.slot = slot then w.value else lastWritten slot writes := by
  rw [lastWritten, List.reverse_concat, List.find?_cons]
  by_cases h : w.slot = slot
  · simp [h]
  · simp [h, lastWritten]

/-! ## The two words of a record -/

namespace Field

variable {f : Field}

/-- The value of a field as digits of its word. -/
theorem toNat_read (h : f.Fits) (word : UInt32) :
    (f.read word).toNat = word.toNat / 2 ^ f.shift.toNat % 2 ^ f.width.toNat := by
  rw [read, UInt32.toNat_and, toNat_lowMask h, Nat.and_two_pow_sub_one_eq_mod,
    UInt32.toNat_shiftRight, Nat.mod_eq_of_lt h.shift_lt, Nat.shiftRight_eq_div_pow]

/-- Writing a field sets no bit behind its end. -/
theorem write_lt (h : f.Fits) {n : Nat} (hend : f.shift.toNat + f.width.toNat ≤ n)
    {word : UInt32} (hword : word.toNat < 2 ^ n) (value : UInt32) :
    (f.write word value).toNat < 2 ^ n := by
  apply Nat.lt_pow_two_of_testBit
  intro i hi
  by_cases hi' : i < 32
  · rw [testBit_write h word value hi', if_neg (by omega)]
    exact Nat.testBit_lt_two_pow
      (Nat.lt_of_lt_of_le hword (Nat.pow_le_pow_right (by decide) hi))
  · exact Nat.testBit_lt_two_pow
      (Nat.lt_of_lt_of_le (UInt32.toNat_lt _) (Nat.pow_le_pow_right (by decide) (by omega)))

end Field

/-- The fields of the second word end before its last five bits. -/
theorem end_field_le : ∀ j : Nat, (field j).inHigh = true →
    (field j).shift.toNat + (field j).width.toNat ≤ 27 := by
  intro j
  unfold field
  split <;> decide

/-- The count before word `j` as digits of the word of the record that holds it. -/
theorem rel_eq_digits (r : RankRecord) {j : Nat} (hj : 1 ≤ j) :
    r.rel j = (if (field j).inHigh then r.high else r.low).toNat
      / 2 ^ (field j).shift.toNat % 2 ^ (field j).width.toNat := by
  rw [rel_of_pos r hj, Field.toNat_read (fits_field j)]

/-- The eight counts of a record are zero only if its words are. -/
theorem eq_default_iff {r : RankRecord} (hspare : r.high.toNat < 2 ^ 27) :
    r = {} ↔ r.abs = 0 ∧ ∀ j, 1 ≤ j → j ≤ 7 → r.rel j = 0 := by
  constructor
  · rintro rfl
    have hall : ∀ j ∈ List.range' 1 7, ({} : RankRecord).rel j = 0 := by decide
    exact ⟨rfl, fun j hj hj' => hall j (List.mem_range'_1.mpr ⟨hj, by omega⟩)⟩
  · rintro ⟨habs, hrel⟩
    have hdigits : ∀ j, 1 ≤ j → j ≤ 7 → (if (field j).inHigh then r.high else r.low).toNat
        / 2 ^ (field j).shift.toNat % 2 ^ (field j).width.toNat = 0 := by
      intro j hj hj'
      rw [← rel_eq_digits r hj, hrel j hj hj']
    have hlow : r.low.toNat = 0 := by
      have h₁ : r.low.toNat / 2 ^ 0 % 2 ^ 7 = 0 := hdigits 1 (by decide) (by decide)
      have h₂ : r.low.toNat / 2 ^ 7 % 2 ^ 8 = 0 := hdigits 2 (by decide) (by decide)
      have h₃ : r.low.toNat / 2 ^ 15 % 2 ^ 8 = 0 := hdigits 3 (by decide) (by decide)
      have h₄ : r.low.toNat / 2 ^ 23 % 2 ^ 9 = 0 := hdigits 4 (by decide) (by decide)
      have hlt := r.low.toNat_lt
      omega
    have hhigh : r.high.toNat = 0 := by
      have h₅ : r.high.toNat / 2 ^ 0 % 2 ^ 9 = 0 := hdigits 5 (by decide) (by decide)
      have h₆ : r.high.toNat / 2 ^ 9 % 2 ^ 9 = 0 := hdigits 6 (by decide) (by decide)
      have h₇ : r.high.toNat / 2 ^ 18 % 2 ^ 9 = 0 := hdigits 7 (by decide) (by decide)
      omega
    obtain ⟨absolute, low, high⟩ := r
    rw [mk.injEq]
    exact ⟨UInt32.toNat_inj.mp habs, UInt32.toNat_inj.mp hlow, UInt32.toNat_inj.mp hhigh⟩

/-! ## What every write keeps -/

/-- The record has in each count what was last written to it, and no bit outside its fields. -/
structure Holds (writes : List Write) (r : RankRecord) : Prop where
  abs : r.abs = lastWritten .block writes
  rel : ∀ {j : Nat}, 1 ≤ j → j ≤ 7 → r.rel j = lastWritten (.word j) writes
  spare : r.high.toNat < 2 ^ 27

theorem holds_default : Holds [] {} := by
  have hspare : ({} : RankRecord).high.toNat < 2 ^ 27 := by decide
  obtain ⟨habs, hrel⟩ := (eq_default_iff hspare).mp rfl
  exact ⟨habs, fun hj hj' => hrel _ hj hj', hspare⟩

theorem high_setRel_lt {r : RankRecord} (h : r.high.toNat < 2 ^ 27) (j value : Nat) :
    (r.setRel j value).high.toNat < 2 ^ 27 := by
  rw [setRel]
  split
  · rename_i hhigh
    exact Field.write_lt (fits_field j) (end_field_le j hhigh) h _
  · exact h

namespace Holds

variable {past writes : List Write} {r : RankRecord}

/-- A write that fits can be made, and changes no count but its own. -/
theorem write (h : Holds past r) {w : Write} (hfits : w.Fits) :
    ∃ next, r.write? w = some next ∧ Holds (past ++ [w]) next := by
  obtain ⟨slot, value⟩ := w
  cases slot with
  | block =>
    have hvalue : value < UInt32.size := hfits
    refine ⟨r.setAbs value, if_pos hvalue, ?_, ?_, h.spare⟩
    · rw [abs_setAbs r hfits, lastWritten_concat, if_pos rfl]
    · intro j hj hj'
      rw [lastWritten_concat, if_neg (by simp)]
      exact h.rel hj hj'
  | word i =>
    obtain ⟨hi, hi', hvalue⟩ := hfits
    refine ⟨r.setRel i value, if_pos ⟨hi, by omega, hvalue⟩, ?_, ?_, high_setRel_lt h.spare i value⟩
    · rw [abs_setRel, h.abs, lastWritten_concat, if_neg (by simp)]
    · intro j hj hj'
      rw [lastWritten_concat]
      by_cases hij : i = j
      · subst hij
        rw [if_pos rfl, rel_setRel_same r hi hi' hvalue]
      · rw [if_neg (by simpa using hij), rel_setRel_of_ne r value hi hi' hj' hij, h.rel hj hj']

/-- A run of writes that fit can be made, and after each of them the record has what was last
written. -/
theorem records (h : Holds past r) (hfits : ∀ w ∈ writes, w.Fits) :
    ∃ records, r.records? writes = some records ∧ records.length = writes.length + 1
      ∧ ∀ {n : Nat} {r' : RankRecord}, records[n]? = some r' →
        Holds (past ++ writes.take n) r' := by
  induction writes generalizing past r with
  | nil =>
    refine ⟨[r], rfl, rfl, ?_⟩
    intro n r' hr'
    obtain rfl : r' = r := List.mem_singleton.mp (List.mem_of_getElem? hr')
    simpa using h
  | cons w writes ih =>
    obtain ⟨next, hnext, hholds⟩ := h.write (hfits w (by simp))
    obtain ⟨later, hlater, hlength, hall⟩ := ih hholds fun v hv => hfits v (by simp [hv])
    refine ⟨r :: later, ?_, by rw [List.length_cons, hlength, List.length_cons], ?_⟩
    · simp only [records?, hnext, hlater, Option.bind_eq_bind, Option.bind_some]
    · intro n r' hr'
      cases n with
      | zero =>
        obtain rfl : r = r' := by simpa using hr'
        simpa using h
      | succ n =>
        rw [List.getElem?_cons_succ] at hr'
        simpa using hall hr'

end Holds

/-- The counts are independent variables. From the default record every run of writes that fit can
be made, and before and after each of them every count is what was last written to it or zero, and
the record is the default one exactly if all of them are zero. -/
theorem counts_independent (writes : List Write) (hfits : ∀ w ∈ writes, w.Fits) :
    ∃ records, records? {} writes = some records ∧ records.length = writes.length + 1
      ∧ ∀ {n : Nat} {r : RankRecord}, records[n]? = some r →
        r.abs = lastWritten .block (writes.take n)
          ∧ (∀ j, 1 ≤ j → j ≤ 7 → r.rel j = lastWritten (.word j) (writes.take n))
          ∧ r.rel 0 = 0
          ∧ (r = {} ↔ r.abs = 0 ∧ ∀ j, 1 ≤ j → j ≤ 7 → r.rel j = 0) := by
  obtain ⟨records, hrecords, hlength, hall⟩ := holds_default.records hfits
  refine ⟨records, hrecords, hlength, ?_⟩
  intro n r hr
  have hholds : Holds (writes.take n) r := hall hr
  exact ⟨hholds.abs, fun j hj hj' => hholds.rel hj hj', rfl, eq_default_iff hholds.spare⟩

/-- All counts at their greatest fill the first word to its last bit; the count before the fourth
word is then written again and the ones beside it stay. -/
theorem counts_independent_full : ∃ (records : List RankRecord) (r : RankRecord),
    records? {} [⟨.block, 2 ^ 32 - 1⟩, ⟨.word 1, 64⟩, ⟨.word 2, 128⟩, ⟨.word 3, 192⟩,
        ⟨.word 4, 256⟩, ⟨.word 5, 320⟩, ⟨.word 6, 384⟩, ⟨.word 7, 448⟩, ⟨.word 4, 17⟩]
          = some records
      ∧ records[9]? = some r ∧ r.abs = 2 ^ 32 - 1 ∧ r.rel 3 = 192 ∧ r.rel 4 = 17 ∧ r.rel 5 = 320
      ∧ r ≠ {} := by
  obtain ⟨records, hrecords, hlength, hall⟩ := counts_independent
    [⟨.block, 2 ^ 32 - 1⟩, ⟨.word 1, 64⟩, ⟨.word 2, 128⟩, ⟨.word 3, 192⟩, ⟨.word 4, 256⟩,
      ⟨.word 5, 320⟩, ⟨.word 6, 384⟩, ⟨.word 7, 448⟩, ⟨.word 4, 17⟩] (by decide)
  obtain ⟨r, hr⟩ : ∃ r, records[9]? = some r :=
    ⟨_, List.getElem?_eq_getElem (by rw [hlength]; decide)⟩
  obtain ⟨habs, hrel, _, hdefault⟩ := hall hr
  refine ⟨records, r, hrecords, hr, habs, hrel 3 (by decide) (by decide),
    hrel 4 (by decide) (by decide), hrel 5 (by decide) (by decide), ?_⟩
  intro h
  have hzero := (hdefault.mp h).1
  rw [habs] at hzero
  exact absurd hzero (by decide)

end Lexicon.RankRecord
