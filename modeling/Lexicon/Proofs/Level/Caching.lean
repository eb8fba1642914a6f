/-
Lexicon.Proofs.Level.Caching — a cache slot remembers an edge of its own level, or none.

While the edges are offered a slot is either still without an edge or holds one whose
slot it is (`Offered`); a finished slot is cleared or tells that edge's nodes and what
it spells (`cache_ofShape`). The word in a slot stands for one piece only, because no
target reaches the mark of a byte (`piece_pieceWord`). On the first level the number
of slots is a multiple of 256, so two edges of one node never share a slot
(`edgeSlot_injective`).
-/
import Lexicon.Proofs.Folds
import Lexicon.Proofs.Level.Pieces

namespace Lexicon

/-! ## Words -/

/-- The mark of a byte, behind which no target lies. -/
def Slot.targetLimit : Nat :=
  0xFFFFFF00

theorem Slot.piece_pieceWord {p : Piece} (h : ∀ target, p = .link target → target < targetLimit)
    (parent child : UInt32) : (⟨parent, child, pieceWord p⟩ : Slot).piece = p := by
  cases p with
  | byte b =>
    have hb := UInt8.toNat_lt b
    have hword : (0xFFFFFF00 ||| b.toUInt32).toNat = 0xFFFFFF00 + b.toNat := by
      rw [UInt32.toNat_or, UInt8.toNat_toUInt32]
      exact (Nat.two_pow_add_eq_or_of_lt hb 0xFFFFFF).symm
    have hmark : (0xFFFFFF00 ||| b.toUInt32) >>> 8 = 0xFFFFFF := by
      rw [← UInt32.toNat_inj, UInt32.toNat_shiftRight, hword, Nat.shiftRight_eq_div_pow]
      show (0xFFFFFF00 + b.toNat) / 256 = 0xFFFFFF
      omega
    have hlow : (0xFFFFFF00 ||| b.toUInt32).toUInt8 = b := by
      rw [← UInt8.toNat_inj, UInt32.toNat_toUInt8, hword]
      omega
    rw [piece, pieceWord]
    simp only [hmark, if_true, hlow]
  | link target =>
    have hlt := h target rfl
    rw [targetLimit] at hlt
    have hword : target.toUInt32.toNat = target := toNat_toUInt32 (by omega)
    have hmark : target.toUInt32 >>> 8 ≠ 0xFFFFFF := by
      intro heq
      have hnat := congrArg UInt32.toNat heq
      rw [UInt32.toNat_shiftRight, hword, Nat.shiftRight_eq_div_pow] at hnat
      have hdiv : target / 256 = 0xFFFFFF := hnat
      omega
    rw [piece, pieceWord]
    simp only [if_neg hmark, hword]

/-! ## Slots -/

theorem Cache.doubled_eq (size wanted : Nat) : ∃ k, doubled size wanted = size * 2 ^ k := by
  fun_induction doubled size wanted with
  | case1 size h ih =>
    obtain ⟨k, hk⟩ := ih
    exact ⟨k + 1, by rw [hk, Nat.pow_succ]; ac_rfl⟩
  | case2 size h => exact ⟨0, by rw [Nat.pow_zero, Nat.mul_one]⟩

theorem Level.exists_slotCount_eq (reading : Reading) (size : CacheSize) (distinct : Nat) :
    ∃ k, slotCount reading size distinct = 2 ^ k := by
  cases reading with
  | forward =>
    obtain ⟨k, hk⟩ := Cache.doubled_eq 256 (distinct / size.divisor)
    exact ⟨8 + k, hk.trans (Nat.pow_add 2 8 k).symm⟩
  | backward =>
    obtain ⟨k, hk⟩ := Cache.doubled_eq 1 (distinct / size.divisor)
    exact ⟨k, hk.trans (Nat.one_mul _)⟩

theorem Level.slotCount_pos (reading : Reading) (size : CacheSize) (distinct : Nat) :
    0 < slotCount reading size distinct := by
  obtain ⟨k, hk⟩ := exists_slotCount_eq reading size distinct
  exact Nat.lt_of_lt_of_eq (Nat.two_pow_pos k) hk.symm

theorem Level.dvd_slotCount (size : CacheSize) (distinct : Nat) :
    256 ∣ slotCount .forward size distinct := by
  obtain ⟨k, hk⟩ := Cache.doubled_eq 256 (distinct / size.divisor)
  exact ⟨2 ^ k, hk⟩

/-- Two bytes that share a slot below one node are the same byte. -/
theorem Cache.edgeSlot_injective {slots parent : Nat} {a b : UInt8} (h : 256 ∣ slots)
    (heq : edgeSlot slots parent a = edgeSlot slots parent b) : a = b := by
  have hlow : ∀ c : UInt8, edgeSlot slots parent c % 256
      = (parent ^^^ parent <<< 5) % 2 ^ 8 ^^^ c.toNat := by
    intro c
    rw [edgeSlot, Nat.mod_mod_of_dvd _ h]
    show (parent ^^^ parent <<< 5 ^^^ c.toNat) % 2 ^ 8 = _
    rw [Nat.xor_mod_two_pow, Nat.mod_eq_of_lt (UInt8.toNat_lt c)]
  have hxor := congrArg (fun n => (parent ^^^ parent <<< 5) % 2 ^ 8 ^^^ n % 256) heq
  simp only [hlow, ← Nat.xor_assoc, Nat.xor_self, Nat.zero_xor] at hxor
  exact UInt8.toNat_inj.mp hxor

namespace Level

variable {reading : Reading} {s : Shape} {targets : List Nat} {tail : Tail} {config : Config}

/-- A slot while edges are offered: it holds none, or one whose slot it is. -/
def Offered (reading : Reading) (slots : Nat) (s : Shape) (k : Nat) (slot : Slot) : Prop :=
  slot.child = 0 ∨ ∃ u v e, s.Enters u e v ∧ slot.parent = u.toUInt32 ∧ slot.child = v.toUInt32
    ∧ k = slotOf reading slots u v e

/-- A finished slot that remembers an edge, with what the edge spells. -/
def Remembers (reading : Reading) (slots : Nat) (s : Shape) (targets : List Nat) (k : Nat)
    (slot : Slot) : Prop :=
  ∃ u v e, s.Enters u e v ∧ slot.parent.toNat = u ∧ slot.child.toNat = v
    ∧ k = slotOf reading slots u v e ∧ slot.piece = e.piece (targetOf s targets v)

/-- The slots after all edges were offered. -/
def offeredOf (reading : Reading) (slots : Nat) (s : Shape) : Array Slot :=
  s.edges.zipIdx.foldl
    (fun cache ((parent, e), i) =>
      cache.modify (slotOf reading slots parent (i + 1) e) (·.offer parent (i + 1) e.weight))
    (Array.replicate slots Slot.fresh)

theorem size_offeredOf (reading : Reading) (slots : Nat) (s : Shape) :
    (offeredOf reading slots s).size = slots := by
  have h := size_foldl_modify
    (fun x : (Nat × Edge) × Nat => slotOf reading slots x.1.1 (x.2 + 1) x.1.2)
    (fun x slot => slot.offer x.1.1 (x.2 + 1) x.1.2.weight) s.edges.zipIdx
    (Array.replicate slots Slot.fresh)
  rw [Array.size_replicate] at h
  exact h

theorem offered_offeredOf {slots k : Nat} {slot : Slot}
    (h : (offeredOf reading slots s)[k]? = some slot) : Offered reading slots s k slot := by
  refine foldl_modify_keeps
    (fun x : (Nat × Edge) × Nat => slotOf reading slots x.1.1 (x.2 + 1) x.1.2)
    (fun x (slot : Slot) => slot.offer x.1.1 (x.2 + 1) x.1.2.weight)
    (Offered reading slots s) ?_ ?_ k slot h
  · intro x hx slot hslot
    rw [Slot.offer]
    split
    · refine Or.inr ⟨x.1.1, x.2 + 1, x.1.2, ?_, rfl, rfl, rfl⟩
      exact ⟨x.2, rfl, List.mem_zipIdx_iff_getElem?.mp hx⟩
    · exact hslot
  · intro k slot hslot
    rw [Array.getElem?_replicate] at hslot
    split at hslot
    · obtain rfl := Option.some.inj hslot
      exact Or.inl rfl
    · cases hslot

theorem size_cache_ofShape : (ofShape reading s targets tail config).cache.size
    = slotCount reading config.cache s.distinct := by
  show ((offeredOf reading (slotCount reading config.cache s.distinct) s).toList.map
    (Slot.finish fun child => (shapePieces s targets).toArray[child - 1]?)).toArray.size = _
  rw [List.size_toArray, List.length_map, Array.length_toList, size_offeredOf]

/-- A slot of a laid-out level is cleared or remembers an edge. -/
theorem cache_ofShape (hsize : s.edges.length + 1 < 2 ^ 32) (hsound : s.Sound)
    (htargets : ∀ {u v : Nat} {e : Edge}, s.Enters u e v → e.isLink = true →
      targetOf s targets v < Slot.targetLimit) {k : Nat} {slot : Slot}
    (h : (ofShape reading s targets tail config).cache[k]? = some slot) :
    slot.parent = 0xFFFFFFFF ∧ slot.child = 0xFFFFFFFF
      ∨ Remembers reading (ofShape reading s targets tail config).cache.size s targets k slot := by
  rw [size_cache_ofShape]
  change ((offeredOf reading (slotCount reading config.cache s.distinct) s).toList.map
    (Slot.finish fun child => (shapePieces s targets).toArray[child - 1]?)).toArray[k]? = _ at h
  rw [List.getElem?_toArray, List.getElem?_map, Array.getElem?_toList] at h
  obtain ⟨old, hold, rfl⟩ := Option.map_eq_some_iff.mp h
  rw [Slot.finish]
  by_cases hzero : old.child = 0
  · rw [if_pos hzero]
    exact Or.inl ⟨rfl, rfl⟩
  · rcases offered_offeredOf hold with hnone | ⟨u, v, e, he, hparent, hchild, hk⟩
    · exact absurd hnone hzero
    · have huv := hsound.lt_of_enters he
      have hv := hsound.lt_length he
      rw [hsound.length_nodes] at hv
      have hchild' : old.child.toNat = v := by rw [hchild, toNat_toUInt32 (by omega)]
      have hparent' : old.parent.toNat = u := by rw [hparent, toNat_toUInt32 (by omega)]
      rw [if_neg hzero, hchild', List.getElem?_toArray, shapePieces_getElem? targets he]
      refine Or.inr ⟨u, v, e, he, hparent', hchild', hk, ?_⟩
      apply Slot.piece_pieceWord
      intro target htarget
      rw [Edge.piece] at htarget
      split at htarget
      · rename_i hlink
        obtain rfl := Piece.link.inj htarget
        exact htargets he hlink
      · cases htarget

end Level

end Lexicon
