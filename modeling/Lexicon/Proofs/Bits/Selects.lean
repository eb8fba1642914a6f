/-
Lexicon.Proofs.Bits.Selects — the select of a bit vector finds the bit that was
asked for.

The search runs in three stages, and each finds where the selected bit `p` is:
between two samples (`sample_of_selectsAt`, `sample_end`), in the block `p / 512`
(`blockOf?_eq_some`, whether the blocks are gone through or halved), and in the word
`p / 64 % 8` of the block (`wordOf_eq`). All comparisons on the way are of one form,
whether more than `k` bits of the kind stand before some position, and
`SelectsAt.lt_countBefore_iff` turns each into whether the position is past `p`. The
records see the last words filled up with zeros, so zeros are counted in the list with
zeros behind it, which moves no bit. `find?_ofBits` is the result, and `select_exact`
says what callers are answered, also those that ask for too much.
-/
import Lexicon.Proofs.Bits.Ranks

namespace Lexicon.BitVector

variable {kind : Bool} {bits : List Bool} {k p : Nat} {zeros ones : Bool}

/-! ## Samples -/

/-- The sample of every 512th bit, in a list that starts behind `seen` bits of the kind. -/
theorem sample_of_selectsAt_from : ∀ (bits : List Bool) (position seen m k p : Nat),
    SelectsAt kind bits m p → 512 * k = seen + m →
    (samples kind position seen bits)[k - blocksOf 512 seen]? = some (position + p).toUInt32
  | [], position, seen, m, k, p, h, _ => by simpa using h.lt_length
  | b :: bits, position, seen, m, k, p, h, hk => by
      rw [samples]
      rcases h.of_cons with ⟨hp, hm, hb⟩ | ⟨m', p', h', hp, hm⟩
      · have haligned : seen % 512 = 0 := by omega
        have hindex : k - blocksOf 512 seen = 0 := by
          rw [blocksOf]
          omega
        rw [if_pos hb, if_pos haligned, hindex, hp]
        rfl
      · have hpos : position + p = position + 1 + p' := by omega
        rw [hpos]
        by_cases hb : b = kind
        · rw [if_pos hb] at hm ⊢
          have ih := sample_of_selectsAt_from bits (position + 1) (seen + 1) m' k p' h' (by omega)
          by_cases haligned : seen % 512 = 0
          · have hindex : k - blocksOf 512 seen = k - blocksOf 512 (seen + 1) + 1 := by
              rw [blocksOf, blocksOf]
              omega
            rw [if_pos haligned, hindex, List.getElem?_cons_succ, ih]
          · have hindex : blocksOf 512 seen = blocksOf 512 (seen + 1) := by
              rw [blocksOf, blocksOf]
              omega
            rw [if_neg haligned, hindex, ih]
        · rw [if_neg hb] at hm ⊢
          exact sample_of_selectsAt_from bits (position + 1) seen m' k p' h' (by omega)

/-- Behind the samples stands the position after the last bit. -/
theorem sample_end_from : ∀ (bits : List Bool) (position seen : Nat),
    (samples kind position seen bits)[blocksOf 512 (seen + bits.count kind) - blocksOf 512 seen]?
      = some (position + bits.length).toUInt32
  | [], position, seen => by simp [samples]
  | b :: bits, position, seen => by
      rw [samples, List.count_cons, List.length_cons, Nat.add_comm bits.length,
        ← Nat.add_assoc position]
      by_cases hb : b = kind
      · have ih := sample_end_from bits (position + 1) (seen + 1)
        have hbeq : (b == kind) = true := by simpa using hb
        have hcount : seen + (bits.count kind + 1) = seen + 1 + bits.count kind := by omega
        rw [if_pos hb, if_pos hbeq, hcount]
        by_cases haligned : seen % 512 = 0
        · have hindex : blocksOf 512 (seen + 1 + bits.count kind) - blocksOf 512 seen
              = blocksOf 512 (seen + 1 + bits.count kind) - blocksOf 512 (seen + 1) + 1 := by
            rw [blocksOf, blocksOf, blocksOf]
            omega
          rw [if_pos haligned, hindex, List.getElem?_cons_succ, ih]
        · have hindex : blocksOf 512 seen = blocksOf 512 (seen + 1) := by
            rw [blocksOf, blocksOf]
            omega
          rw [if_neg haligned, hindex, ih]
      · have hbeq : ¬(b == kind) = true := by simpa using hb
        rw [if_neg hb, if_neg hbeq, Nat.add_zero]
        exact sample_end_from bits (position + 1) seen

/-- There is a sample for every 512 bits of the kind that are begun, and one more at the end. -/
theorem length_samples (kind : Bool) : ∀ (bits : List Bool) (position seen : Nat),
    (samples kind position seen bits).length
      = blocksOf 512 (seen + bits.count kind) - blocksOf 512 seen + 1
  | [], position, seen => by simp [samples]
  | b :: bits, position, seen => by
      rw [samples, List.count_cons]
      by_cases hb : b = kind
      · have ih := length_samples kind bits (position + 1) (seen + 1)
        have hbeq : (b == kind) = true := by simpa using hb
        have hcount : seen + (bits.count kind + 1) = seen + 1 + bits.count kind := by omega
        rw [if_pos hb, if_pos hbeq, hcount]
        by_cases haligned : seen % 512 = 0
        · rw [if_pos haligned, List.length_cons, ih]
          simp only [blocksOf]
          omega
        · rw [if_neg haligned, ih]
          simp only [blocksOf]
          omega
      · have hbeq : ¬(b == kind) = true := by simpa using hb
        rw [if_neg hb, if_neg hbeq, Nat.add_zero]
        exact length_samples kind bits (position + 1) seen

theorem samples_ne_nil (kind : Bool) (position seen : Nat) (bits : List Bool) :
    samples kind position seen bits ≠ [] := by
  apply List.ne_nil_of_length_pos
  rw [length_samples]
  exact Nat.succ_pos _

theorem sample_of_selectsAt (h : SelectsAt kind bits (512 * k) p) :
    (samples kind 0 0 bits)[k]? = some p.toUInt32 := by
  have hsample := sample_of_selectsAt_from bits 0 0 (512 * k) k p h (by omega)
  rwa [Nat.zero_add] at hsample

theorem sample_end (kind : Bool) (bits : List Bool) :
    (samples kind 0 0 bits)[blocksOf 512 (bits.count kind)]? = some bits.length.toUInt32 := by
  have hsample : (samples kind 0 0 bits)[blocksOf 512 (0 + bits.count kind) - blocksOf 512 0]?
      = some (0 + bits.length).toUInt32 := sample_end_from bits 0 0
  rwa [Nat.zero_add, Nat.zero_add] at hsample

/-- The two samples around a bit: the one before it is at or before the bit, the next one past it
and not past the end. -/
theorem exists_samples (hsize : bits.length < 2 ^ 32) (h : SelectsAt kind bits k p) :
    ∃ before next : UInt32, (samples kind 0 0 bits)[k / 512]? = some before
      ∧ (samples kind 0 0 bits)[k / 512 + 1]? = some next
      ∧ before.toNat ≤ p ∧ p < next.toNat ∧ next.toNat ≤ bits.length
      ∧ (k % 512 = 0 → before.toNat = p) := by
  have hcount := h.lt_count
  have hnat : ∀ n, n ≤ bits.length → n.toUInt32.toNat = n :=
    fun n hn => toNat_toUInt32 (Nat.lt_of_le_of_lt hn hsize)
  obtain ⟨q, hq⟩ := exists_selectsAt bits
    (show 512 * (k / 512) < bits.count kind by omega)
  have hqp : q ≤ p := by
    have hlt := h.lt_iff hq
    omega
  have hqlen : q ≤ bits.length := Nat.le_of_lt hq.lt_length
  have hexact : k % 512 = 0 → q = p := by
    intro hk
    have hsame : 512 * (k / 512) = k := by omega
    rw [hsame] at hq
    exact hq.unique h
  by_cases hlast : 512 * (k / 512 + 1) < bits.count kind
  · obtain ⟨r, hr⟩ := exists_selectsAt bits hlast
    have hrlen : r ≤ bits.length := Nat.le_of_lt hr.lt_length
    refine ⟨q.toUInt32, r.toUInt32, sample_of_selectsAt hq, sample_of_selectsAt hr, ?_⟩
    rw [hnat q hqlen, hnat r hrlen]
    exact ⟨hqp, (h.lt_iff hr).mp (by omega), hrlen, hexact⟩
  · have hindex : blocksOf 512 (bits.count kind) = k / 512 + 1 := by
      rw [blocksOf]
      omega
    have hend := sample_end kind bits
    rw [hindex] at hend
    refine ⟨q.toUInt32, bits.length.toUInt32, sample_of_selectsAt hq, hend, ?_⟩
    rw [hnat q hqlen, hnat _ (Nat.le_refl _)]
    exact ⟨hqp, h.lt_length, Nat.le_refl _, hexact⟩

/-! ## The block -/

/-- Zeros behind the bits add no ones. -/
theorem countBefore_true_append_zeros (n i : Nat) :
    countBefore true (bits ++ List.replicate n false) i = countBefore true bits i := by
  rw [countBefore, List.take_append, List.count_append, List.take_replicate, List.count_replicate]
  rfl

/-- The bits of a kind before a block, where the bits past the end count as zeros. -/
theorem beforeBlock?_ofBits (hsize : bits.length < 2 ^ 32) {block : Nat}
    (hblock : block ≤ blocksOf 512 bits.length) :
    (ofBits bits zeros ones).beforeBlock? kind block
      = some (countBefore kind (bits ++ List.replicate 512 false) (512 * block)) := by
  obtain ⟨record, hrecord⟩ : ∃ record, (ofBits bits zeros ones).ranks[block]? = some record :=
    ⟨_, ranks_ofBits_getElem? hblock⟩
  have hones : countBefore true (bits ++ List.replicate 512 false) (512 * block) = record.abs := by
    rw [countBefore_true_append_zeros, abs_ranks hsize hblock hrecord]
  rw [beforeBlock?, hrecord, Option.map_some]
  cases kind with
  | true => rw [hones, if_pos rfl]
  | false =>
    have hinside : 512 * block ≤ (bits ++ List.replicate 512 false).length := by
      rw [List.length_append, List.length_replicate]
      rw [blocksOf] at hblock
      omega
    have hboth := countBefore_true_add_false hinside
    simp only [Bool.false_eq_true, if_false, Option.some.injEq]
    omega

@[simp] theorem size_ranks_ofBits :
    (ofBits bits zeros ones).ranks.size = blocksOf 512 bits.length + 1 := by
  rw [ofBits, List.size_toArray, length_rankRecords]

/-- Going through the blocks stops at the block of the bit. -/
theorem blockByScan?_eq_some (hsize : bits.length < 2 ^ 32) (h : SelectsAt kind bits k p)
    (first : Nat) (hfirst : first ≤ p / 512) :
    (ofBits bits zeros ones).blockByScan? kind k first = some (p / 512) := by
  have hpadded := h.append (List.replicate 512 false)
  have hlast : p / 512 < blocksOf 512 bits.length :=
    (lt_blocksOf (by decide)).mpr (by have hp := h.lt_length; omega)
  fun_induction blockByScan? (ofBits bits zeros ones) kind k first with
  | case1 first hlt ih =>
    rw [beforeBlock?_ofBits hsize (by omega)]
    simp only [Option.bind_eq_bind, Option.bind_some]
    by_cases hk : k < countBefore kind (bits ++ List.replicate 512 false) (512 * (first + 1))
    · have hp := (hpadded.lt_countBefore_iff _).mp hk
      have hsame : first = p / 512 := by omega
      rw [if_pos hk, hsame]
    · have hp := mt (hpadded.lt_countBefore_iff _).mpr hk
      rw [if_neg hk]
      exact ih (by omega)
  | case2 first hge =>
    rw [size_ranks_ofBits] at hge
    omega

/-- Halving finds the block of the bit, if it lies between the two ends. -/
theorem blockByHalving?_eq_some (hsize : bits.length < 2 ^ 32) (h : SelectsAt kind bits k p)
    (first stop : Nat) (hfirst : first ≤ p / 512) (hstop : p / 512 < stop)
    (hend : stop ≤ blocksOf 512 bits.length) :
    (ofBits bits zeros ones).blockByHalving? kind k first stop = some (p / 512) := by
  have hpadded := h.append (List.replicate 512 false)
  fun_induction blockByHalving? (ofBits bits zeros ones) kind k first stop with
  | case1 first stop hlt middle ihlow ihhigh =>
    rw [beforeBlock?_ofBits hsize (show middle ≤ _ by omega)]
    simp only [Option.bind_eq_bind, Option.bind_some]
    by_cases hk : k < countBefore kind (bits ++ List.replicate 512 false) (512 * middle)
    · have hp := (hpadded.lt_countBefore_iff _).mp hk
      rw [if_pos hk]
      exact ihlow hfirst (by omega) (by omega)
    · have hp := mt (hpadded.lt_countBefore_iff _).mpr hk
      rw [if_neg hk]
      exact ihhigh (by omega) hstop hend
  | case2 first stop hge =>
    have hsame : first = p / 512 := by omega
    rw [hsame]

/-- Either way of searching finds the block of the bit. -/
theorem blockOf?_eq_some (hsize : bits.length < 2 ^ 32) (h : SelectsAt kind bits k p)
    {first stop : Nat} (hfirst : first ≤ p / 512) (hstop : p / 512 < stop)
    (hend : stop ≤ blocksOf 512 bits.length) :
    (ofBits bits zeros ones).blockOf? kind k first stop = some (p / 512) := by
  rw [blockOf?]
  split
  · exact blockByScan?_eq_some hsize h first hfirst
  · exact blockByHalving?_eq_some hsize h first stop hfirst hstop hend

/-! ## The word -/

/-- Three comparisons find the word, if each of them tells on which side of it a word lies. -/
theorem wordOf_eq {record : RankRecord} {rest t : Nat} (ht : t ≤ 7)
    (h : ∀ j ≤ 7, rest < beforeWord record kind j ↔ t < j) : wordOf record kind rest = t := by
  have hle : ∀ j ≤ 7, beforeWord record kind j ≤ rest ↔ j ≤ t := by
    intro j hj
    have hj' := h j hj
    omega
  have half : (if rest < beforeWord record kind 4 then 0 else 4) = 4 * (t / 4) := by
    simp only [h 4 (by omega)]
    split
    all_goals omega
  have quarter : (if beforeWord record kind (4 * (t / 4) + 2) ≤ rest then 4 * (t / 4) + 2
      else 4 * (t / 4)) = 2 * (t / 2) := by
    simp only [hle (4 * (t / 4) + 2) (by omega)]
    split
    all_goals omega
  have whole : (if beforeWord record kind (2 * (t / 2) + 1) ≤ rest then 2 * (t / 2) + 1
      else 2 * (t / 2)) = t := by
    simp only [hle (2 * (t / 2) + 1) (by omega)]
    split
    all_goals omega
  simp only [wordOf, half, quarter, whole]

/-- The bits of a kind before a word of a block, where the bits past the end count as zeros. -/
theorem beforeWord_ranks (hsize : bits.length < 2 ^ 32) {block j : Nat} {record : RankRecord}
    (hblock : 512 * block < bits.length) (hj : j ≤ 7)
    (hrecord : (ofBits bits zeros ones).ranks[block]? = some record) :
    countBefore kind bits (512 * block) + beforeWord record kind j
      = countBefore kind (bits ++ List.replicate 512 false) (64 * (8 * block + j)) := by
  have hb : block ≤ blocksOf 512 bits.length :=
    Nat.le_of_lt ((lt_blocksOf (by decide)).mpr hblock)
  have habs := abs_ranks hsize hb hrecord
  have hrel := abs_add_rel_ranks hsize hb hj hrecord
  cases kind with
  | true =>
    rw [countBefore_true_append_zeros, beforeWord, if_pos rfl]
    omega
  | false =>
    have hinside : 64 * (8 * block + j) ≤ (bits ++ List.replicate 512 false).length := by
      rw [List.length_append, List.length_replicate]
      omega
    have hsum := countBefore_true_add_false hinside
    have hfront := countBefore_true_add_false (Nat.le_of_lt hblock)
    have hspan : countBefore true bits (64 * (8 * block) + 64 * j)
        ≤ countBefore true bits (64 * (8 * block)) + 64 * j := countBefore_add_le _ _
    rw [← Nat.mul_add] at hspan
    rw [countBefore_true_append_zeros] at hsum
    have hsame : 64 * (8 * block) = 512 * block := by omega
    rw [hsame] at hspan
    simp only [beforeWord, Bool.false_eq_true, if_false]
    omega

/-- The search inside the word of a selected bit finds it. -/
theorem select?_word_eq_some (h : SelectsAt kind bits k p) :
    Word.select? (if kind then Word.ofBits ((bits.drop (64 * (p / 64))).take 64)
        else ~~~Word.ofBits ((bits.drop (64 * (p / 64))).take 64))
      (k - countBefore kind bits (64 * (p / 64))) = some (p % 64) := by
  have hp := h.lt_length
  have hin : p % 64 < 64 := Nat.mod_lt _ (by decide)
  have hsplit : 64 * (p / 64) + p % 64 = p := Nat.div_add_mod p 64
  have hbit : ((bits.drop (64 * (p / 64))).take 64)[p % 64]? = some kind := by
    rw [List.getElem?_take_of_lt hin, List.getElem?_drop, hsplit, h.bit]
  have hlength : p % 64 ≤ ((bits.drop (64 * (p / 64))).take 64).length := by
    rw [List.length_take, List.length_drop]
    omega
  have hcount : countBefore kind bits (64 * (p / 64))
      + countBefore kind ((bits.drop (64 * (p / 64))).take 64) (p % 64) = k := by
    rw [countBefore, countBefore, List.take_take, Nat.min_eq_left (Nat.le_of_lt hin)]
    rw [← h.count, ← hsplit, countBefore_add, hsplit]
    rfl
  apply Word.select?_eq_some hin (Word.bit_ofBits_of_kind hin hbit)
  rw [Word.onesBelow_ofBits_of_kind kind (Nat.le_of_lt hin) hlength]
  omega

/-- The selected bit is found in its block. -/
theorem selectInBlock?_eq_some (hsize : bits.length < 2 ^ 32) (h : SelectsAt kind bits k p) :
    (ofBits bits zeros ones).selectInBlock? kind k (p / 512) = some p := by
  have hp := h.lt_length
  have hblock : 512 * (p / 512) < bits.length := by omega
  have hb : p / 512 ≤ blocksOf 512 bits.length :=
    Nat.le_of_lt ((lt_blocksOf (by decide)).mpr hblock)
  obtain ⟨record, hrecord⟩ : ∃ record, (ofBits bits zeros ones).ranks[p / 512]? = some record :=
    ⟨_, ranks_ofBits_getElem? hb⟩
  have hpadded := h.append (List.replicate 512 false)
  have hword : wordOf record kind (k - countBefore kind bits (512 * (p / 512))) = p / 64 % 8 := by
    have hbefore : countBefore kind bits (512 * (p / 512)) ≤ k := by
      rw [← h.count]
      exact countBefore_mono (by omega)
    apply wordOf_eq (by omega)
    intro j hj
    have hj' : countBefore kind bits (512 * (p / 512)) + beforeWord record kind j = _ :=
      beforeWord_ranks hsize hblock hj hrecord
    have hiff := hpadded.lt_countBefore_iff (64 * (8 * (p / 512) + j))
    omega
  have hindex : 8 * (p / 512) + p / 64 % 8 = p / 64 := by omega
  have hinside : 64 * (p / 64) < bits.length := by omega
  have hrest : k - countBefore kind bits (512 * (p / 512)) - beforeWord record kind (p / 64 % 8)
      = k - countBefore kind bits (64 * (p / 64)) := by
    have hj' : countBefore kind bits (512 * (p / 512)) + beforeWord record kind (p / 64 % 8) = _ :=
      beforeWord_ranks hsize hblock (by omega) hrecord
    rw [hindex, countBefore_append_of_le (Nat.le_of_lt hinside)] at hj'
    rw [Nat.sub_sub, hj']
  rw [selectInBlock?, hrecord, beforeBlock?_ofBits hsize hb,
    countBefore_append_of_le (Nat.le_of_lt hblock)]
  simp only [Option.bind_eq_bind, Option.bind_some, hword, hindex, hrest]
  rw [words_ofBits_getElem? hinside, Option.bind_some, select?_word_eq_some h, Option.bind_some,
    Nat.div_add_mod]

/-! ## Select -/

/-- The samples that were asked for. -/
theorem samplesOf_ofBits (hsampled : (if kind then ones else zeros) = true) (i : Nat) :
    ((ofBits bits zeros ones).samplesOf kind)[i]? = (samples kind 0 0 bits)[i]? := by
  cases kind with
  | true =>
    simp only [if_true] at hsampled
    simp [samplesOf, ofBits, hsampled]
  | false =>
    simp only [Bool.false_eq_true, if_false] at hsampled
    simp [samplesOf, ofBits, hsampled]

theorem hasOneSamples_ofBits : (ofBits bits zeros true).hasOneSamples = true := by
  simp [hasOneSamples, ofBits, samples_ne_nil]

theorem hasZeroSamples_ofBits : (ofBits bits true ones).hasZeroSamples = true := by
  simp [hasZeroSamples, ofBits, samples_ne_nil]

@[simp] theorem hasSamples_ofBits :
    (ofBits bits zeros ones).hasSamples kind = if kind then ones else zeros := by
  cases kind <;> cases zeros <;> cases ones
    <;> simp [hasSamples, hasOneSamples, hasZeroSamples, ofBits, samples_ne_nil]

/-- The search finds the position of every bit of a sampled kind. -/
theorem find?_ofBits (hsize : bits.length < 2 ^ 32)
    (hsampled : (if kind then ones else zeros) = true) (h : SelectsAt kind bits k p) :
    (ofBits bits zeros ones).find? kind k = some p := by
  have hp := h.lt_length
  obtain ⟨before, next, hbefore, hnext, hle, hlt, hend, hexact⟩ := exists_samples hsize h
  rw [find?, samplesOf_ofBits hsampled, hbefore]
  simp only [Option.bind_eq_bind, Option.bind_some]
  by_cases haligned : k % 512 = 0
  · rw [if_pos haligned, hexact haligned]
  · have hblocks : p / 512 < blocksOf 512 next.toNat := (lt_blocksOf (by decide)).mpr (by omega)
    have hstop : blocksOf 512 next.toNat ≤ blocksOf 512 bits.length := by
      rw [blocksOf, blocksOf]
      omega
    rw [if_neg haligned, samplesOf_ofBits hsampled, hnext, Option.bind_some,
      blockOf?_eq_some hsize h (by omega) hblocks hstop, Option.bind_some,
      selectInBlock?_eq_some hsize h]

/-- Select finds the position of every bit of a sampled kind. -/
theorem select?_ofBits (hsize : bits.length < 2 ^ 32)
    (hsampled : (if kind then ones else zeros) = true) (h : SelectsAt kind bits k p) :
    (ofBits bits zeros ones).select? kind k = some p := by
  have hk : k < (ofBits bits zeros ones).count kind := by
    rw [count_ofBits]
    exact h.lt_count
  rw [select?, if_pos ⟨hasSamples_ofBits.trans hsampled, hk⟩, find?_ofBits hsize hsampled h]

/-- Select answers with the position of the bit that was asked for, if its kind was sampled. -/
theorem select?_eq_some_iff (hsize : bits.length < 2 ^ 32) :
    (ofBits bits zeros ones).select? kind k = some p
      ↔ (if kind then ones else zeros) = true ∧ SelectsAt kind bits k p := by
  constructor
  · intro hselect
    rw [select?, hasSamples_ofBits, count_ofBits] at hselect
    by_cases hasked : (if kind then ones else zeros) = true ∧ k < bits.count kind
    · obtain ⟨q, hq⟩ := exists_selectsAt bits hasked.2
      rw [if_pos hasked, find?_ofBits hsize hasked.1 hq] at hselect
      exact ⟨hasked.1, Option.some.inj hselect ▸ hq⟩
    · rw [if_neg hasked] at hselect
      cases hselect
  · rintro ⟨hsampled, hp⟩
    exact select?_ofBits hsize hsampled hp

/-- There is no answer for a kind that was not sampled, and none past the last bit of a kind. -/
theorem select?_eq_none_iff (hsize : bits.length < 2 ^ 32) :
    (ofBits bits zeros ones).select? kind k = none
      ↔ (if kind then ones else zeros) = false ∨ bits.count kind ≤ k := by
  rw [Option.eq_none_iff_forall_ne_some]
  constructor
  · intro hnone
    by_contra hasked
    obtain ⟨hsampled, hk⟩ := not_or.mp hasked
    obtain ⟨p, hp⟩ := exists_selectsAt bits (Nat.lt_of_not_le hk)
    exact hnone p (select?_ofBits hsize (Bool.not_eq_false _ ▸ hsampled) hp)
  · rintro hasked p hselect
    obtain ⟨hsampled, hp⟩ := (select?_eq_some_iff hsize).mp hselect
    rcases hasked with hnone | hk
    · rw [hsampled] at hnone
      cases hnone
    · exact Nat.not_le_of_lt hp.lt_count hk

/-- Inside its range the search that trusts its caller finds what select answers. -/
theorem find?_eq_select? (hsize : bits.length < 2 ^ 32)
    (hsampled : (if kind then ones else zeros) = true) (hk : k < bits.count kind) :
    (ofBits bits zeros ones).find? kind k = (ofBits bits zeros ones).select? kind k := by
  obtain ⟨p, hp⟩ := exists_selectsAt bits hk
  rw [find?_ofBits hsize hsampled hp, select?_ofBits hsize hsampled hp]

/-- Ones and zeros that were sampled are found by their numbers, all of them and no more; kinds that
were not are not found; and for every number in range the search that trusts its caller finds the
same position. -/
theorem select_exact (hsize : bits.length < 2 ^ 32) (zeros ones : Bool) (k : Nat) :
    (∀ p, (ofBits bits zeros ones).select1? k = some p
        ↔ ones = true ∧ SelectsAt true bits k p)
      ∧ (∀ p, (ofBits bits zeros ones).select0? k = some p
        ↔ zeros = true ∧ SelectsAt false bits k p)
      ∧ ((ofBits bits zeros ones).select1? k = none
        ↔ ones = false ∨ (ofBits bits zeros ones).ones ≤ k)
      ∧ ((ofBits bits zeros ones).select0? k = none
        ↔ zeros = false ∨ (ofBits bits zeros ones).zeros ≤ k)
      ∧ (ones = true → k < (ofBits bits zeros ones).ones →
        (ofBits bits zeros ones).find? true k = (ofBits bits zeros ones).select1? k)
      ∧ (zeros = true → k < (ofBits bits zeros ones).zeros →
        (ofBits bits zeros ones).find? false k = (ofBits bits zeros ones).select0? k) := by
  rw [zeros_ofBits, ones_ofBits]
  exact ⟨fun p => select?_eq_some_iff hsize, fun p => select?_eq_some_iff hsize,
    select?_eq_none_iff hsize, select?_eq_none_iff hsize,
    fun hsampled hk => find?_eq_select? hsize hsampled hk,
    fun hsampled hk => find?_eq_select? hsize hsampled hk⟩

/-- The second one stands eleven blocks behind the first, so its block is found by halving; there is
no third one, and the zeros were not sampled. -/
theorem select_exact_far :
    (ofBits (true :: (List.replicate 6000 false ++ [true])) false true).select1? 1 = some 6001
      ∧ (ofBits (true :: (List.replicate 6000 false ++ [true])) false true).find? true 1 = some 6001
      ∧ (ofBits (true :: (List.replicate 6000 false ++ [true])) false true).select1? 2 = none
      ∧ (ofBits (true :: (List.replicate 6000 false ++ [true])) false true).select0? 5 = none := by
  have hlength : (true :: (List.replicate 6000 false ++ [true])).length = 6002 := by
    rw [List.length_cons, List.length_append, List.length_replicate, List.length_singleton]
  have hones : (true :: (List.replicate 6000 false ++ [true])).count true = 2 := by
    rw [List.count_cons_self, List.count_append, List.count_replicate]
    rfl
  have hsize : (true :: (List.replicate 6000 false ++ [true])).length < 2 ^ 32 := by
    rw [hlength]
    decide
  have hsecond : SelectsAt true (true :: (List.replicate 6000 false ++ [true])) 1 6001 := by
    constructor
    · rw [List.getElem?_cons_succ, List.getElem?_append_right (by rw [List.length_replicate]),
        List.length_replicate]
      rfl
    · rw [countBefore, List.take_succ_cons, List.take_append_of_le_length
        (by rw [List.length_replicate]), List.take_replicate, List.count_cons_self,
        List.count_replicate]
      rfl
  obtain ⟨hfound, _, _, _, hsame, _⟩ := select_exact hsize false true 1
  have hone := (hfound 6001).mpr ⟨rfl, hsecond⟩
  refine ⟨hone, ?_, ?_, ?_⟩
  · rw [hsame rfl (by rw [ones_ofBits, hones]; decide), hone]
  · exact (select_exact hsize false true 2).2.2.1.mpr (Or.inr (by rw [ones_ofBits, hones]))
  · exact (select_exact hsize false true 5).2.2.2.1.mpr (Or.inl rfl)

end Lexicon.BitVector
