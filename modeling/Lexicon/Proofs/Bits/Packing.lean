/-
Lexicon.Proofs.Bits.Packing — a packed vector gives back the values that it was
made from.

The values lie one behind the other in one list of bits (`getElem?_flatMap_valueBits`),
and a window of at most 32 bits is read out of the packed words, whether it lies in one
word (`testBit_window`) or across two (`testBit_across`). `get?_ofList` says that the window
of value `i` is value `i`. Or-ing the values into words of zeros, one after the other,
comes to the same words: what is or-ed in marks the positions of its value and leaves
those of the values before it as they are (`HoldBits.orAt?`, `fill?_eq`).
-/
import Lexicon.Bits.PackedVector
import Lexicon.Proofs.Bits.Words
import Lexicon.Proofs.Folds

namespace Lexicon

/-- A number has no binary digits past its bit length. -/
theorem lt_two_pow_bitLength (n : Nat) : n < 2 ^ bitLength n := by
  unfold bitLength
  split
  · rename_i h
    simp [h]
  · exact Nat.lt_log2_self

theorem bitLength_le {n k : Nat} (h : n < 2 ^ k) : bitLength n ≤ k := by
  unfold bitLength
  split
  · exact Nat.zero_le k
  · rename_i hn
    exact (Nat.log2_lt hn).mpr h

namespace PackedVector

/-! ## The bits of the values -/

/-- The width at which some values are packed. -/
def widthOf (values : List UInt32) : Nat :=
  bitLength (values.foldl (fun m v => max m v.toNat) 0)

/-- No value needs more bits than the width. -/
theorem lt_two_pow_widthOf {values : List UInt32} {v : UInt32} (h : v ∈ values) :
    v.toNat < 2 ^ widthOf values :=
  Nat.lt_of_le_of_lt ((le_foldl_max UInt32.toNat values 0).2 v h) (lt_two_pow_bitLength _)

theorem widthOf_le (values : List UInt32) : widthOf values ≤ 32 :=
  bitLength_le (foldl_max_lt UInt32.toNat (by decide) fun v _ => v.toNat_lt)

@[simp] theorem length_valueBits (width : Nat) (v : UInt32) :
    (valueBits width v).length = width := by
  rw [valueBits, List.length_map, List.length_range]

theorem length_flatMap_valueBits (width : Nat) (values : List UInt32) :
    (values.flatMap (valueBits width)).length = values.length * width := by
  induction values with
  | nil => simp
  | cons v values ih =>
      rw [List.flatMap_cons, List.length_append, ih, length_valueBits, List.length_cons,
        Nat.succ_mul, Nat.add_comm]

/-- Bit `j` of value `i` in the list of all bits. -/
theorem getElem?_flatMap_valueBits {width j : Nat} (hj : j < width) :
    ∀ {values : List UInt32} {i : Nat} {v : UInt32}, values[i]? = some v →
      (values.flatMap (valueBits width))[i * width + j]? = some (v.toNat.testBit j)
  | u :: values, 0, v, h => by
      have hv : u = v := by simpa using h
      have hfront : j < (valueBits width v).length := by rwa [length_valueBits]
      rw [hv, List.flatMap_cons, Nat.zero_mul, Nat.zero_add, List.getElem?_append_left hfront,
        valueBits, List.getElem?_map, List.getElem?_range hj, Option.map_some]
  | u :: values, i + 1, v, h => by
      have hv : values[i]? = some v := by simpa using h
      have hindex : (i + 1) * width + j = (valueBits width u).length + (i * width + j) := by
        rw [length_valueBits, Nat.succ_mul]
        omega
      rw [List.flatMap_cons, hindex, List.getElem?_append_right (Nat.le_add_right _ _),
        Nat.add_sub_cancel_left, getElem?_flatMap_valueBits hj hv]

/-! ## Reading a window of the words -/

theorem toNat_maskOf {width : Nat} (h : width ≤ 32) : (maskOf width).toNat = 2 ^ width - 1 := by
  have hpow : 2 ^ width ≤ 2 ^ 32 := Nat.pow_le_pow_right (by decide) h
  have hpos : 0 < 2 ^ width := Nat.two_pow_pos width
  rw [maskOf, Nat.toUInt32_eq, UInt32.toNat_ofNat', Nat.shiftLeft_eq, Nat.one_mul]
  exact Nat.mod_eq_of_lt (by omega)

/-- A number whose low bits are those of a value is the value under its mask. -/
theorem and_maskOf_eq {width : Nat} (hwidth : width ≤ 32) {x v : UInt32}
    (hv : v.toNat < 2 ^ width) (h : ∀ j, j < width → x.toNat.testBit j = v.toNat.testBit j) :
    x &&& maskOf width = v := by
  rw [← UInt32.toNat_inj]
  apply Nat.eq_of_testBit_eq
  intro j
  rw [UInt32.toNat_and, Nat.testBit_and, toNat_maskOf hwidth, Nat.testBit_two_pow_sub_one]
  by_cases hj : j < width
  · rw [h j hj]
    simp [hj]
  · have hzero : v.toNat.testBit j = false :=
      Nat.testBit_lt_two_pow
        (Nat.lt_of_lt_of_le hv (Nat.pow_le_pow_right (by decide) (by omega)))
    simp [hj, hzero]

theorem testBit_shiftRight (w : Word) {s : Nat} (hs : s < 64) (j : Nat) :
    (w >>> s.toUInt64).toNat.testBit j = w.toNat.testBit (s + j) := by
  rw [UInt64.toNat_shiftRight, Word.toNat_shift hs, Nat.testBit_shiftRight]

theorem testBit_shiftLeft (w : Word) {s j : Nat} (hs : s < 64) (hj : j < 64) :
    (w <<< s.toUInt64).toNat.testBit j = (decide (s ≤ j) && w.toNat.testBit (j - s)) := by
  rw [UInt64.toNat_shiftLeft, Word.toNat_shift hs, Nat.testBit_mod_two_pow, Nat.testBit_shiftLeft]
  simp [hj]

theorem testBit_toUInt32 (w : Word) {j : Nat} (hj : j < 32) :
    w.toUInt32.toNat.testBit j = w.toNat.testBit j := by
  rw [UInt64.toNat_toUInt32, Nat.testBit_mod_two_pow]
  simp [hj]

/-- Bit `j` of the word that holds position `64 * k` of a packed list. -/
theorem testBit_window (bits : List Bool) (k : Nat) {j : Nat} (hj : j < 64) :
    (Word.ofBits ((bits.drop (64 * k)).take 64)).toNat.testBit j
      = bits.getD (64 * k + j) false := by
  rw [Word.testBit_ofBits _ hj, List.getD_eq_getElem?_getD, List.getElem?_take_of_lt hj,
    List.getElem?_drop, List.getD_eq_getElem?_getD]

theorem testBit_eq_false_of_le (w : Word) {j : Nat} (hj : 64 ≤ j) : w.toNat.testBit j = false := by
  apply Nat.testBit_lt_two_pow
  exact Nat.lt_of_lt_of_le w.toNat_lt (Nat.pow_le_pow_right (by decide) hj)

/-- A window across two words: the low word gives its high end, the next one its low end. -/
theorem testBit_across (low next : Word) {s j : Nat} (hs : s < 64) (hs' : 0 < s) (hj : j < 64) :
    ((low >>> s.toUInt64) ||| (next <<< (64 - s).toUInt64)).toNat.testBit j
      = if s + j < 64 then low.toNat.testBit (s + j) else next.toNat.testBit (s + j - 64) := by
  rw [UInt64.toNat_or, Nat.testBit_or, testBit_shiftRight low hs,
    testBit_shiftLeft next (by omega) hj]
  split
  · have hbelow : ¬64 - s ≤ j := by omega
    simp [hbelow]
  · have habove : 64 - s ≤ j := by omega
    have hindex : j - (64 - s) = s + j - 64 := by omega
    rw [testBit_eq_false_of_le low (by omega), hindex]
    simp [habove]

/-! ## The values -/

@[simp] theorem width_ofList (values : List UInt32) : (ofList values).width = widthOf values := rfl

@[simp] theorem size_ofList (values : List UInt32) : (ofList values).size = values.length := rfl

theorem words_ofList {values : List UInt32} (h : widthOf values ≠ 0) :
    (ofList values).words = (packBits (values.flatMap (valueBits (widthOf values)))).toArray := by
  unfold ofList
  have hwidth : ¬(widthOf values = 0 ∧ values ≠ []) := fun hzero => h hzero.1
  exact if_neg hwidth

/-- Values without bits leave one word. -/
theorem words_ofList_of_width_zero {values : List UInt32} (hwidth : widthOf values = 0)
    (hne : values ≠ []) : (ofList values).words = #[0] := by
  unfold ofList
  exact if_pos ⟨hwidth, hne⟩

/-- At width zero every value is zero and is read out of the only word. -/
theorem get?_ofList_of_width_zero {values : List UInt32} {i : Nat} {v : UInt32}
    (hwidth : widthOf values = 0) (h : values[i]? = some v) : (ofList values).get? i = some v := by
  have hi : i < values.length := (List.getElem?_eq_some_iff.mp h).1
  have hmem : v ∈ values := List.mem_of_getElem? h
  have hwords := words_ofList_of_width_zero hwidth (List.ne_nil_of_mem hmem)
  have hvalue := lt_two_pow_widthOf hmem
  rw [hwidth] at hvalue
  rw [get?, size_ofList, if_pos hi, width_ofList, hwidth, hwords]
  simp only [Nat.mul_zero, Nat.zero_div, Nat.zero_mod, Nat.zero_add, Nat.zero_le, if_true]
  exact congrArg some (and_maskOf_eq (by decide) hvalue (fun j hj => absurd hj (Nat.not_lt_zero j)))

/-- The vector of a list holds the list. -/
theorem get?_ofList {values : List UInt32} {i : Nat} {v : UInt32} (h : values[i]? = some v) :
    (ofList values).get? i = some v := by
  by_cases hwidth : widthOf values = 0
  · exact get?_ofList_of_width_zero hwidth h
  have hi : i < values.length := (List.getElem?_eq_some_iff.mp h).1
  have hle := widthOf_le values
  have hvalue := lt_two_pow_widthOf (List.mem_of_getElem? h)
  have hwords := words_ofList hwidth
  rw [get?, size_ofList, if_pos hi, width_ofList, hwords]
  generalize widthOf values = width at hwidth hle hvalue
  have hspan : i * width + width ≤ (values.flatMap (valueBits width)).length := by
    rw [length_flatMap_valueBits, ← Nat.succ_mul]
    exact Nat.mul_le_mul_right width hi
  have hbits : ∀ j, j < width →
      (values.flatMap (valueBits width)).getD (i * width + j) false = v.toNat.testBit j := by
    intro j hj
    rw [List.getD_eq_getElem?_getD, getElem?_flatMap_valueBits hj h]
    rfl
  generalize i * width = position at hspan hbits
  generalize values.flatMap (valueBits width) = bits at hspan hbits
  have hs : position % 64 < 64 := Nat.mod_lt _ (by decide)
  have hsplit : 64 * (position / 64) + position % 64 = position := Nat.div_add_mod position 64
  have hword := packBits_getElem? (show 64 * (position / 64) < bits.length by omega)
  simp only [List.getElem?_toArray, hword, Option.bind_eq_bind, Option.bind_some]
  by_cases hone : position % 64 + width ≤ 64
  · rw [if_pos hone]
    refine congrArg some (and_maskOf_eq hle hvalue ?_)
    intro j hj
    rw [testBit_toUInt32 _ (by omega), testBit_shiftRight _ hs, testBit_window _ _ (by omega),
      ← Nat.add_assoc, hsplit, hbits j hj]
  · have hnext := packBits_getElem? (show 64 * (position / 64 + 1) < bits.length by omega)
    rw [if_neg hone, hnext, Option.bind_some]
    refine congrArg some (and_maskOf_eq hle hvalue ?_)
    intro j hj
    rw [testBit_toUInt32 _ (by omega), testBit_across _ _ hs (by omega) (by omega)]
    split
    · rw [testBit_window _ _ (by omega), ← Nat.add_assoc, hsplit, hbits j hj]
    · have hindex : 64 * (position / 64 + 1) + (position % 64 + j - 64) = position + j := by omega
      rw [testBit_window _ _ (by omega), hindex, hbits j hj]

/-! ## Packing in place -/

/-- Bit `j` of word `k` says whether position `64 * k + j` is marked. -/
def HoldBits (words : Array Word) (marked : Nat → Bool) : Prop :=
  ∀ (k : Nat) (word : Word), words[k]? = some word →
    ∀ j, j < 64 → word.toNat.testBit j = marked (64 * k + j)

/-- The positions that a value marks when its lowest bit stands at `start`. -/
def spread (start : Nat) (v : UInt32) (p : Nat) : Bool :=
  decide (start ≤ p) && v.toNat.testBit (p - start)

/-- Words of one number that mark the same positions are the same. -/
theorem HoldBits.ext {words words' : Array Word} {marked : Nat → Bool} (h : HoldBits words marked)
    (h' : HoldBits words' marked) (hsize : words.size = words'.size) : words = words' := by
  apply Array.ext hsize
  intro k hk hk'
  rw [← UInt64.toNat_inj]
  apply Nat.eq_of_testBit_eq
  intro j
  by_cases hj : j < 64
  · rw [h k _ (Array.getElem?_eq_getElem hk) j hj, h' k _ (Array.getElem?_eq_getElem hk') j hj]
  · have hle := Nat.le_of_not_lt hj
    rw [testBit_eq_false_of_le _ hle, testBit_eq_false_of_le _ hle]

theorem holdBits_replicate (n : Nat) : HoldBits (Array.replicate n 0) fun _ => false := by
  intro k word hword j _
  rw [Array.getElem?_replicate] at hword
  split at hword
  · obtain rfl := Option.some.inj hword
    exact Nat.zero_testBit j
  · cases hword

theorem holdBits_packBits (bits : List Bool) :
    HoldBits (packBits bits).toArray fun p => bits.getD p false := by
  intro k word hword j hj
  rw [List.getElem?_toArray, packBits, Word.pack_getElem?] at hword
  split at hword
  · obtain rfl := Option.some.inj hword
    exact testBit_window bits k hj
  · cases hword

/-- A word that is or-ed to the one at a place marks its own positions too. -/
theorem HoldBits.or {words : Array Word} {marked added : Nat → Bool} {k : Nat} {old addend : Word}
    (h : HoldBits words marked) (hold : words[k]? = some old)
    (haddend : ∀ j, j < 64 → addend.toNat.testBit j = added (64 * k + j)) :
    HoldBits (words.setIfInBounds k (old ||| addend))
      fun p => marked p || (decide (p / 64 = k) && added p) := by
  intro k' word hword j hj
  have hplace : (64 * k' + j) / 64 = k' := by omega
  show word.toNat.testBit j = (marked (64 * k' + j)
    || (decide ((64 * k' + j) / 64 = k) && added (64 * k' + j)))
  rw [Array.getElem?_setIfInBounds] at hword
  by_cases hk : k = k'
  · subst hk
    rw [if_pos rfl, if_pos (Array.getElem?_eq_some_iff.mp hold).1] at hword
    obtain rfl := Option.some.inj hword
    rw [UInt64.toNat_or, Nat.testBit_or, h k old hold j hj, haddend j hj, decide_eq_true hplace,
      Bool.true_and]
  · rw [if_neg hk] at hword
    have hother : ¬(64 * k' + j) / 64 = k := fun heq => hk (heq.symm.trans hplace)
    rw [h k' word hword j hj, decide_eq_false hother, Bool.false_and, Bool.or_false]

/-- A value below `2 ^ width` marks no position from `start + width` on. -/
theorem spread_eq_false {start width p : Nat} {v : UInt32} (hv : v.toNat < 2 ^ width)
    (hp : p < start ∨ start + width ≤ p) : spread start v p = false := by
  rcases hp with hp | hp
  · rw [spread, decide_eq_false (Nat.not_le.mpr hp), Bool.false_and]
  · have hzero : v.toNat.testBit (p - start) = false :=
      Nat.testBit_lt_two_pow
        (Nat.lt_of_lt_of_le hv (Nat.pow_le_pow_right (by decide) (by omega)))
    rw [spread, hzero, Bool.and_false]

/-- A value is stored behind what is there, in one word or across two. -/
theorem HoldBits.orAt? {words : Array Word} {marked : Nat → Bool} {width start : Nat} {v : UInt32}
    (h : HoldBits words marked) (hwidth : width ≤ 32) (hv : v.toNat < 2 ^ width)
    (hplace : start / 64 < words.size) (hroom : start + width ≤ 64 * words.size) :
    ∃ words', PackedVector.orAt? words width start v = some words' ∧ words'.size = words.size
      ∧ HoldBits words' fun p => marked p || spread start v p := by
  have hs : start % 64 < 64 := Nat.mod_lt _ (by decide)
  have hsplit := Nat.div_add_mod start 64
  have hold := Array.getElem?_eq_getElem hplace
  have hlow : ∀ j, j < 64 → (v.toUInt64 <<< (start % 64).toUInt64).toNat.testBit j
      = spread start v (64 * (start / 64) + j) := by
    intro j hj
    have hbound : start % 64 ≤ j ↔ start ≤ 64 * (start / 64) + j := by omega
    have hindex : 64 * (start / 64) + j - start = j - start % 64 := by omega
    rw [testBit_shiftLeft _ hs hj, UInt32.toNat_toUInt64, spread, hindex,
      decide_eq_decide.mpr hbound]
  have hlowered := h.or hold hlow
  rw [PackedVector.orAt?, hold, Option.bind_eq_bind, Option.bind_some]
  by_cases hone : start % 64 + width ≤ 64
  · rw [if_pos hone]
    have hmarked : (fun p => marked p || spread start v p)
        = fun p => marked p || (decide (p / 64 = start / 64) && spread start v p) := by
      funext p
      by_cases hp : p / 64 = start / 64
      · rw [decide_eq_true hp, Bool.true_and]
      · rw [decide_eq_false hp, Bool.false_and, spread_eq_false hv (by omega)]
    exact ⟨_, rfl, Array.size_setIfInBounds, hmarked ▸ hlowered⟩
  · rw [if_neg hone]
    have hnext : start / 64 + 1 < (words.setIfInBounds (start / 64)
        (words[start / 64] ||| (v.toUInt64 <<< (start % 64).toUInt64))).size := by
      rw [Array.size_setIfInBounds]
      omega
    have hhigh : ∀ j, j < 64 → (v.toUInt64 >>> (64 - start % 64).toUInt64).toNat.testBit j
        = spread start v (64 * (start / 64 + 1) + j) := by
      intro j hj
      have hbound : start ≤ 64 * (start / 64 + 1) + j := by omega
      have hindex : 64 * (start / 64 + 1) + j - start = 64 - start % 64 + j := by omega
      rw [testBit_shiftRight _ (by omega), UInt32.toNat_toUInt64, spread, hindex,
        decide_eq_true hbound, Bool.true_and]
    have hboth := hlowered.or (Array.getElem?_eq_getElem hnext) hhigh
    rw [Array.getElem?_eq_getElem hnext, Option.bind_some]
    have hmarked : (fun p => marked p || spread start v p)
        = fun p => (marked p || (decide (p / 64 = start / 64) && spread start v p))
          || (decide (p / 64 = start / 64 + 1) && spread start v p) := by
      funext p
      by_cases hp : p / 64 = start / 64
      · have hp' : p / 64 ≠ start / 64 + 1 := by omega
        rw [decide_eq_true hp, decide_eq_false hp', Bool.true_and, Bool.false_and, Bool.or_false]
      · rw [decide_eq_false hp, Bool.false_and, Bool.or_false]
        by_cases hp' : p / 64 = start / 64 + 1
        · rw [decide_eq_true hp', Bool.true_and]
        · rw [decide_eq_false hp', Bool.false_and, spread_eq_false hv (by omega)]
    exact ⟨_, rfl, by rw [Array.size_setIfInBounds, Array.size_setIfInBounds], hmarked ▸ hboth⟩

/-- Behind the first bits a packed list has those of the value, and zeros behind the value. -/
theorem getD_append_valueBits (bits : List Bool) {width : Nat} {v : UInt32}
    (hv : v.toNat < 2 ^ width) (p : Nat) : (bits ++ valueBits width v).getD p false
      = (bits.getD p false || spread bits.length v p) := by
  rw [List.getD_eq_getElem?_getD, List.getD_eq_getElem?_getD]
  by_cases hp : p < bits.length
  · rw [List.getElem?_append_left hp, spread_eq_false hv (.inl hp), Bool.or_false]
  · have hle := Nat.le_of_not_lt hp
    rw [List.getElem?_append_right hle, List.getElem?_eq_none hle, Option.getD_none, Bool.false_or,
      valueBits, List.getElem?_map]
    by_cases hin : p - bits.length < width
    · rw [List.getElem?_range hin, spread, decide_eq_true hle, Bool.true_and]
      rfl
    · rw [List.getElem?_eq_none (by rw [List.length_range]; omega),
        spread_eq_false hv (.inr (by omega))]
      rfl

/-- Values that are stored one behind the other leave the words of their bits. -/
theorem foldlM_orAt? {width : Nat} (hwidth : width ≤ 32) : ∀ {values : List UInt32} {n : Nat}
    {words : Array Word} {bits : List Bool}, (∀ v ∈ values, v.toNat < 2 ^ width) →
    HoldBits words (fun p => bits.getD p false) → bits.length = n * width →
    (values ≠ [] → 0 < words.size) → (n + values.length) * width ≤ 64 * words.size →
    ∃ words', (values.zipIdx n).foldlM (fun words (value, i) => orAt? words width (i * width) value)
        words = some words' ∧ words'.size = words.size
      ∧ HoldBits words' fun p => (bits ++ values.flatMap (valueBits width)).getD p false
  | [], n, words, bits, _, hold, _, _, _ => by
      refine ⟨words, rfl, rfl, ?_⟩
      rwa [List.flatMap_nil, List.append_nil]
  | v :: values, n, words, bits, hvalues, hold, hlength, hpos, hroom => by
      have hv := hvalues v List.mem_cons_self
      have hsize := hpos (List.cons_ne_nil v values)
      have hall : (n + 1 + values.length) * width ≤ 64 * words.size := by
        rwa [List.length_cons, Nat.add_comm values.length, ← Nat.add_assoc] at hroom
      have hfirst : n * width + width ≤ 64 * words.size := by
        rw [← Nat.succ_mul]
        exact Nat.le_trans (Nat.mul_le_mul_right width (Nat.le_add_right _ _)) hall
      have hplace : n * width / 64 < words.size := by
        rcases Nat.eq_zero_or_pos width with rfl | hwidth'
        · rwa [Nat.mul_zero, Nat.zero_div]
        · omega
      obtain ⟨words', hwords', hsize', hold'⟩ := hold.orAt? hwidth hv hplace hfirst
      have hbits : (fun p => bits.getD p false || spread (n * width) v p)
          = fun p => (bits ++ valueBits width v).getD p false := by
        funext p
        rw [getD_append_valueBits bits hv, hlength]
      rw [hbits] at hold'
      obtain ⟨words'', hwords'', hsize'', hold''⟩ := foldlM_orAt? hwidth (n := n + 1)
        (fun u hu => hvalues u (List.mem_cons_of_mem v hu)) hold'
        (by rw [List.length_append, length_valueBits, hlength, Nat.succ_mul])
        (fun _ => hsize'.symm ▸ hsize) (hsize'.symm ▸ hall)
      refine ⟨words'', ?_, hsize''.trans hsize', ?_⟩
      · rw [List.zipIdx_cons, List.foldlM_cons]
        change (orAt? words width (n * width) v >>= _) = _
        rw [hwords']
        exact hwords''
      · rwa [List.flatMap_cons, ← List.append_assoc]

/-- The number of words: as few as have room for the bits, and one for values without bits. -/
theorem size_words_ofList (values : List UInt32) : (ofList values).words.size
    = if widthOf values = 0 ∧ values ≠ [] then 1
      else blocksOf 64 (widthOf values * values.length) := by
  unfold ofList
  change (if widthOf values = 0 ∧ values ≠ [] then #[0]
    else (packBits (values.flatMap (valueBits (widthOf values)))).toArray).size = _
  split
  · rfl
  · rw [List.size_toArray, packBits, Word.length_pack, length_flatMap_valueBits, Nat.mul_comm]

theorem holdBits_ofList (values : List UInt32) : HoldBits (ofList values).words
    fun p => (values.flatMap (valueBits (widthOf values))).getD p false := by
  by_cases hwidth : widthOf values = 0 ∧ values ≠ []
  · have hnil : values.flatMap (valueBits (widthOf values)) = [] := by
      rw [hwidth.1]
      exact List.flatMap_eq_nil_iff.mpr fun _ _ => rfl
    rw [words_ofList_of_width_zero hwidth.1 hwidth.2, hnil]
    exact holdBits_replicate 1
  · unfold ofList
    change HoldBits (if widthOf values = 0 ∧ values ≠ [] then #[0]
      else (packBits (values.flatMap (valueBits (widthOf values)))).toArray) _
    rw [if_neg hwidth]
    exact holdBits_packBits _

/-- Storing the values one by one, in place, never leaves the words and comes to the packed list. -/
theorem fill?_eq (values : List UInt32) :
    fill? (widthOf values) values = some (ofList values).words := by
  have hsize := size_words_ofList values
  have hroom : (0 + values.length) * widthOf values ≤ 64 * (ofList values).words.size := by
    rw [hsize, Nat.zero_add, Nat.mul_comm]
    split
    · rename_i h
      rw [h.1, Nat.zero_mul]
      exact Nat.zero_le _
    · exact le_mul_blocksOf (by decide) _
  have hpos : values ≠ [] → 0 < (ofList values).words.size := by
    intro hne
    have hlength := List.length_pos_iff.mpr hne
    by_cases hwidth : widthOf values = 0
    · rw [hsize, if_pos ⟨hwidth, hne⟩]
      exact Nat.one_pos
    · have hbits := Nat.mul_pos (Nat.pos_of_ne_zero hwidth) hlength
      rw [Nat.zero_add, Nat.mul_comm] at hroom
      omega
  have hzeros : HoldBits (Array.replicate (ofList values).words.size 0)
      fun p => ([] : List Bool).getD p false := holdBits_replicate _
  obtain ⟨words, hwords, hsize', hold⟩ := foldlM_orAt? (widthOf_le values) (n := 0)
    (fun v hv => lt_two_pow_widthOf hv) hzeros (Nat.zero_mul _).symm
    (by rwa [Array.size_replicate]) (by rwa [Array.size_replicate])
  rw [Array.size_replicate] at hsize'
  rw [hold.ext (holdBits_ofList values) hsize'] at hwords
  rw [fill?, ← hsize]
  exact hwords

end PackedVector

end Lexicon
